import Mathlib.Data.Finset.Image
import Mathlib.Data.List.Infix

/-!
# Trees of names

A set of names, each a list with separators in it, is the set of leaves of a tree: a name `p` is under `d` if it is `d`, or
goes on behind it with a separator. `moved sep old new F` moves what is under one name under another, in place of what was
there.

The lemmas say what a reader that keeps a part `P` of the names sees of a move: a move within a part that has all that is
under its names (`filter_moved`), a move out of the part (`filter_moved_away`), and a move outside of it
(`filter_moved_outside`).
-/

namespace Cosmost.Lib

variable {α : Type*} (sep : α)

/-- `p` is `d`, or beneath it. -/
def Under (d p : List α) : Prop := d <+: p ∧ ∀ c ∈ (p.drop d.length).head?, c = sep

variable {sep} {d p : List α}

/-- A name under `d` is `d` and the rest. -/
theorem under_iff : Under sep d p ↔ ∃ r, (∀ c ∈ r.head?, c = sep) ∧ p = d ++ r := by
  constructor
  · rintro ⟨⟨r, rfl⟩, hr⟩
    rw [List.drop_left] at hr
    exact ⟨r, hr, rfl⟩
  · rintro ⟨r, hr, rfl⟩
    refine ⟨List.prefix_append d r, ?_⟩
    rw [List.drop_left]
    exact hr

section Moved

variable [DecidableEq α]

instance (sep : α) (d p : List α) : Decidable (Under sep d p) := inferInstanceAs (Decidable (_ ∧ _))

/-- What is under `old` is under `new` instead, and what was there is gone. -/
def moved (sep : α) (old new : List α) (F : Finset (List α)) : Finset (List α) :=
  F.filter (fun p => ¬ Under sep old p ∧ ¬ Under sep new p) ∪
    (F.filter (Under sep old)).image fun p => new ++ p.drop old.length

variable {old new : List α} {F : Finset (List α)}

/-- What moves goes where `new` stands for `old`. -/
theorem mem_moved : p ∈ moved sep old new F ↔
    (p ∈ F ∧ ¬ Under sep old p ∧ ¬ Under sep new p) ∨ ∃ r, (∀ c ∈ r.head?, c = sep) ∧ p = new ++ r ∧ old ++ r ∈ F := by
  simp only [moved, Finset.mem_union, Finset.mem_filter, Finset.mem_image]
  apply or_congr Iff.rfl
  constructor
  · rintro ⟨q, ⟨hq, hunder⟩, rfl⟩
    obtain ⟨r, hr, rfl⟩ := under_iff.mp hunder
    rw [List.drop_left]
    exact ⟨r, hr, rfl, hq⟩
  · rintro ⟨r, hr, rfl, hq⟩
    refine ⟨old ++ r, ⟨hq, under_iff.mpr ⟨r, hr, rfl⟩⟩, ?_⟩
    rw [List.drop_left]

/-! ## What is seen of a move -/

section Filter

variable {P : List α → Prop} [DecidablePred P]

/-- **A move from a name in the part**: it is seen alike by who keeps the part only. -/
theorem filter_moved (hold : ∀ p, Under sep old p → P p) :
    (moved sep old new F).filter P = (moved sep old new (F.filter P)).filter P := by
  ext p
  simp only [Finset.mem_filter, mem_moved]
  apply and_congr_left
  intro hp
  apply or_congr
  · simp [hp]
  · apply exists_congr
    intro r
    apply and_congr_right
    intro hr
    simp [hold (old ++ r) (under_iff.mpr ⟨r, hr, rfl⟩)]

/-- What arrives outside of the part is not seen. -/
theorem filter_moved_away (hnew : ∀ p, Under sep new p → ¬ P p) :
    (moved sep old new F).filter P = F.filter fun p => P p ∧ ¬ Under sep old p := by
  ext p
  simp only [Finset.mem_filter, mem_moved]
  constructor
  · rintro ⟨⟨hF, hout, -⟩ | ⟨r, hr, rfl, -⟩, hp⟩
    · exact ⟨hF, hp, hout⟩
    · exact absurd hp (hnew _ (under_iff.mpr ⟨r, hr, rfl⟩))
  · rintro ⟨hF, hp, hout⟩
    exact ⟨Or.inl ⟨hF, hout, fun hin => hnew p hin hp⟩, hp⟩

/-- A move outside of the part is not seen. -/
theorem filter_moved_outside (hold : ∀ p, Under sep old p → ¬ P p) (hnew : ∀ p, Under sep new p → ¬ P p) :
    (moved sep old new F).filter P = F.filter P := by
  rw [filter_moved_away hnew]
  apply Finset.filter_congr
  intro p _
  exact ⟨fun h => h.1, fun hp => ⟨hp, fun hin => hold p hin hp⟩⟩

end Filter

end Moved

end Cosmost.Lib
