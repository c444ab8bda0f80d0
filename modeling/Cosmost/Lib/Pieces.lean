import Cosmost.Lib.Text

/-!
# Pieces laid one behind the other

`PieceAt off ps o p`: with the pieces `ps` laid one behind the other from `off` on, `p` is the piece at `o`. Two of them
are the same or do not overlap (`PieceAt.disjoint`), so that copying one in keeps those that are there
(`PieceAt.holds_blit`); when all are there, so is the text that they make up (`holds_flatten`).
-/

namespace Cosmost.Lib

/-- `p` is the piece at `o`. -/
def PieceAt : Nat → List (List Char) → Nat → List Char → Prop
  | _, [], _, _ => False
  | off, q :: qs, o, p => o = off ∧ p = q ∨ PieceAt (off + q.length) qs o p

/-- One more piece goes behind the others. -/
theorem pieceAt_concat {ps : List (List Char)} {q p : List Char} {o : Nat} : ∀ {off : Nat},
    PieceAt off (ps ++ [q]) o p ↔ PieceAt off ps o p ∨ o = off + ps.flatten.length ∧ p = q := by
  induction ps with
  | nil => intro off; simp [PieceAt]
  | cons r rs ih =>
    intro off
    rw [List.cons_append, PieceAt, PieceAt, ih, List.flatten_cons, List.length_append, Nat.add_assoc, or_assoc]

theorem PieceAt.bounds {ps : List (List Char)} {p : List Char} {o : Nat} : ∀ {off : Nat}, PieceAt off ps o p →
    off ≤ o ∧ o + p.length ≤ off + ps.flatten.length := by
  induction ps with
  | nil => intro off h; exact h.elim
  | cons r rs ih =>
    intro off h
    rw [List.flatten_cons, List.length_append]
    rcases h with ⟨rfl, rfl⟩ | h
    · omega
    · have := ih h
      omega

/-- Two pieces are the same, or one ends before the other begins. -/
theorem PieceAt.disjoint {ps : List (List Char)} {p p' : List Char} {o o' : Nat} : ∀ {off : Nat},
    PieceAt off ps o p → PieceAt off ps o' p' →
    (o = o' ∧ p = p') ∨ o + p.length ≤ o' ∨ o' + p'.length ≤ o := by
  induction ps with
  | nil => intro off h; exact h.elim
  | cons r rs ih =>
    intro off h h'
    rcases h with ⟨rfl, rfl⟩ | h <;> rcases h' with ⟨rfl, rfl⟩ | h'
    · exact Or.inl ⟨rfl, rfl⟩
    · exact Or.inr (Or.inl h'.bounds.1)
    · exact Or.inr (Or.inr h.bounds.1)
    · exact ih h h'

/-- Copying a piece in keeps the pieces that are there. -/
theorem PieceAt.holds_blit {buf : Bytes} {ps : List (List Char)} {p p' : List Char} {off o o' : Nat}
    (h : PieceAt off ps o p) (h' : PieceAt off ps o' p') (hb : Holds buf o' p') : Holds (blit buf o p) o' p' := by
  rcases h.disjoint h' with ⟨rfl, rfl⟩ | hle | hle
  · exact Lib.holds_blit _ _ _
  · exact hb.blit_of_ge hle
  · exact hb.blit_of_le p hle

/-- The pieces make up the text. -/
theorem holds_flatten {buf : Bytes} {ps : List (List Char)} : ∀ {off : Nat},
    (∀ o p, PieceAt off ps o p → Holds buf o p) → Holds buf off ps.flatten := by
  induction ps with
  | nil => intro off _; exact holds_nil _ _
  | cons r rs ih =>
    intro off h
    exact (h off r (Or.inl ⟨rfl, rfl⟩)).append (ih fun o p hp => h o p (Or.inr hp))

end Cosmost.Lib
