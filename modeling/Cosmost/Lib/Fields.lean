import Cosmost.Lib.Text

/-!
# Texts made of records

A text in which every record ends with one and the same character is cut back into its records (`fields`). Where texts that
end with a record are put one behind the other, so are their records (`fields_append`, `fields_flatten`); a text from which
the last character was removed is cut by `List.splitOn` alone (`splitOn_dropLast`).

`readDecimal` reads a number that `decimal` has printed.
-/

namespace Cosmost.Lib

section Fields

variable {α : Type*} [DecidableEq α]

/-- The records of a text in which every record ends with `q`. -/
def fields (q : α) (s : List α) : List (List α) := (s.splitOn q).dropLast

@[simp] theorem fields_nil (q : α) : fields q [] = [] := by simp [fields, List.splitOn_nil]

/-- Its last character is that of its last record. -/
theorem splitOn_dropLast {q : α} {s : List α} (h : s.getLast? = some q) : s.dropLast.splitOn q = fields q s := by
  obtain ⟨a, rfl⟩ := List.getLast?_eq_some_iff.mp h
  rw [fields, List.splitOn_append_cons_self, List.splitOn_nil, List.dropLast_concat, List.dropLast_concat]

/-- What stands behind a text that ends with a record. -/
theorem fields_append {q : α} {s : List α} (h : s.getLast? = some q) (t : List α) :
    fields q (s ++ t) = fields q s ++ fields q t := by
  obtain ⟨a, rfl⟩ := List.getLast?_eq_some_iff.mp h
  have hne := List.splitOn_ne_nil q t
  rw [List.append_assoc, List.singleton_append, fields, List.splitOn_append_cons_self, List.dropLast_append_of_ne_nil hne,
    fields, List.splitOn_append_cons_self, List.splitOn_nil, List.dropLast_concat, fields]

/-- One record. -/
theorem fields_singleton {q : α} {r : List α} (h : q ∉ r) : fields q (r ++ [q]) = [r] := by
  rw [fields, List.splitOn_append_cons_self, List.splitOn_nil, List.splitOn_eq_singleton h]
  rfl

/-- **Texts that end with a record keep their records together.** -/
theorem fields_flatten {q : α} {ss : List (List α)} (h : ∀ s ∈ ss, s.getLast? = some q) (t : List α) :
    fields q (ss.flatten ++ t) = (ss.map (fields q)).flatten ++ fields q t := by
  induction ss with
  | nil => simp
  | cons s ss ih =>
    have hs := List.forall_mem_cons.mp h
    rw [List.flatten_cons, List.append_assoc, fields_append hs.1, ih hs.2, List.map_cons, List.flatten_cons,
      List.append_assoc]

/-- The records of which a text is made. -/
theorem fields_records {q : α} {rs : List (List α)} (h : ∀ r ∈ rs, q ∉ r) :
    fields q (rs.map (· ++ [q])).flatten = rs := by
  induction rs with
  | nil => simp
  | cons r rs ih =>
    have hr := List.forall_mem_cons.mp h
    rw [List.map_cons, List.flatten_cons, fields_append (by simp), fields_singleton hr.1, ih hr.2, List.singleton_append]

end Fields

/-! ## Numbers -/

/-- A number in decimal digits. -/
def readDecimal (s : List Char) : Option Nat :=
  if s ≠ [] ∧ s.all (·.isDigit) then some (Nat.ofDigitChars 10 s 0) else none

@[simp] theorem readDecimal_decimal (n : Nat) : readDecimal (decimal n) = some n := by
  have hne : decimal n ≠ [] := List.length_pos_iff.mp (length_decimal_pos n)
  have hall : (decimal n).all (·.isDigit) = true := List.all_eq_true.mpr fun c hc => isDigit_of_mem_decimal hc
  rw [readDecimal, if_pos ⟨hne, hall⟩, decimal, Nat.ofDigitChars_ten_toDigits]

/-- A character that is no digit is in no number. -/
theorem not_mem_decimal {c : Char} (hc : c.isDigit = false) (n : Nat) : c ∉ decimal n := by
  intro h
  rw [isDigit_of_mem_decimal h] at hc
  cases hc

end Cosmost.Lib
