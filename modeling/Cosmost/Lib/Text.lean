import Mathlib.Data.List.Basic
import Mathlib.Data.List.GetD
import Mathlib.Data.Nat.Digits.Defs
import Mathlib.Tactic.Common

/-!
# C strings and byte buffers

A C string is the list of its characters, without the terminating NUL; a byte buffer is a function from offsets.

- `eq_of_append_cons`: two ways to cut a list before the first occurrence of an element are one;
- `decimal` is `%llu`; its length (`length_decimal_le`) and its characters (`isDigit_of_mem_decimal`), and that a number
  at the end of a text can be read back (`eq_of_append_decimal`);
- `fits n s` is what `snprintf` leaves in an array of `n` bytes;
- `blit` is `memcpy` and `strcpy` is `blit` of the string and its NUL; `cstr` reads the string at the start of a
  buffer;
- `Holds buf off s`: the bytes from `off` on are `s`. Writes elsewhere keep it (`Holds.blit_of_le`,
  `Holds.blit_of_ge`), adjacent pieces join (`Holds.append`), and a buffer that holds a string and a NUL after it
  reads as that string (`cstr_of_holds`).
-/

namespace Cosmost.Lib

/-- The terminating character of a C string. -/
def nul : Char := Char.ofNat 0

/-- A string that no NUL cuts short. -/
def NulFree (s : List Char) : Prop := nul ∉ s

instance (s : List Char) : Decidable (NulFree s) := inferInstanceAs (Decidable (nul ∉ s))

theorem NulFree.append {s t : List Char} (hs : NulFree s) (ht : NulFree t) : NulFree (s ++ t) := by
  simp only [NulFree, List.mem_append, not_or]
  exact ⟨hs, ht⟩

theorem nulFree_flatten {ss : List (List Char)} (h : ∀ s ∈ ss, NulFree s) : NulFree ss.flatten := by
  intro hn
  obtain ⟨s, hs, hc⟩ := List.mem_flatten.mp hn
  exact h s hs hc

/-- What comes before the first occurrence of an element, and what after it. -/
theorem eq_of_append_cons {α : Type*} {q : α} {a b x y : List α} (ha : q ∉ a) (hb : q ∉ b)
    (h : a ++ q :: x = b ++ q :: y) : a = b ∧ x = y := by
  rcases List.append_eq_append_iff.mp h with ⟨c, rfl, hc⟩ | ⟨c, rfl, hc⟩
  all_goals
    cases c with
    | nil => exact ⟨by simp, by simpa [eq_comm] using hc⟩
    | cons d c =>
      obtain rfl := (List.cons.inj hc).1
      simp at ha hb

/-! ## Numbers -/

/-- `%llu`. -/
def decimal (n : Nat) : List Char := Nat.toDigits 10 n

theorem length_decimal_pos (n : Nat) : 0 < (decimal n).length := Nat.length_toDigits_pos

theorem length_decimal_le {n k : Nat} (hk : 0 < k) (h : n < 10 ^ k) : (decimal n).length ≤ k :=
  (Nat.length_toDigits_le_iff (by omega) hk).mpr h

theorem isDigit_of_mem_decimal {n : Nat} {c : Char} (h : c ∈ decimal n) : c.isDigit = true :=
  Nat.isDigit_of_mem_toDigits (by omega) (by omega) h

theorem decimal_nulFree (n : Nat) : NulFree (decimal n) := by
  intro h
  have hd := isDigit_of_mem_decimal h
  exact absurd hd (by decide)

/-- The digits determine the number. -/
theorem decimal_injective {m n : Nat} (h : decimal m = decimal n) : m = n := by
  rw [← Nat.ofDigitChars_ten_toDigits (n := m), ← Nat.ofDigitChars_ten_toDigits (n := n)]
  exact congrArg (Nat.ofDigitChars 10 · 0) h

/-- A number at the end of a text, behind a character that is no digit. -/
theorem eq_of_append_decimal {s t : List Char} {c : Char} {m n : Nat} (hc : c.isDigit = false)
    (h : s ++ c :: decimal m = t ++ c :: decimal n) : m = n := by
  have hno : ∀ n, c ∉ (decimal n).reverse := fun n hm => by
    rw [isDigit_of_mem_decimal (List.mem_reverse.mp hm)] at hc
    cases hc
  have hrev := congrArg List.reverse h
  rw [List.reverse_append, List.reverse_cons, List.append_assoc, List.reverse_append, List.reverse_cons,
    List.append_assoc] at hrev
  exact decimal_injective (List.reverse_injective (eq_of_append_cons (hno m) (hno n) hrev).1)

/-! ## Bounded printing -/

/-- What `snprintf` leaves in an array of `n` bytes: at most `n - 1` characters of `s`. -/
def fits (n : Nat) (s : List Char) : List Char := s.take (n - 1)

/-- Nothing is cut off when the NUL has room too. -/
theorem fits_eq {n : Nat} {s : List Char} (h : s.length < n) : fits n s = s :=
  List.take_of_length_le (by omega)

/-! ## Buffers -/

/-- The bytes of a buffer by offset. -/
abbrev Bytes := Nat → Char

/-- `memcpy(&buf[off], s, strlen(s))`. -/
def blit (buf : Bytes) (off : Nat) (s : List Char) : Bytes :=
  fun i => if off ≤ i then s.getD (i - off) (buf i) else buf i

/-- `strcpy(&buf[off], s)`: the string and its NUL. -/
def strcpy (buf : Bytes) (off : Nat) (s : List Char) : Bytes := blit buf off (s ++ [nul])

/-- The C string at the start of a buffer of `n` bytes. -/
def cstr (n : Nat) (buf : Bytes) : List Char := ((List.range n).map buf).takeWhile (· != nul)

/-- The bytes of `buf` from `off` on are `s`. -/
def Holds (buf : Bytes) (off : Nat) (s : List Char) : Prop := ∀ i (h : i < s.length), buf (off + i) = s[i]

theorem blit_before {buf : Bytes} {off i : Nat} (s : List Char) (h : i < off) : blit buf off s i = buf i := by
  rw [blit, if_neg (by omega)]

theorem blit_after {buf : Bytes} {off i : Nat} {s : List Char} (h : off + s.length ≤ i) :
    blit buf off s i = buf i := by
  rw [blit, if_pos (by omega), List.getD_eq_default _ _ (by omega)]

/-- Copying two strings one after the other. -/
theorem blit_append (buf : Bytes) (off : Nat) (s t : List Char) :
    blit buf off (s ++ t) = blit (blit buf off s) (off + s.length) t := by
  funext i
  rcases Nat.lt_or_ge i off with h | h
  · rw [blit_before _ h, blit_before _ (by omega), blit_before _ h]
  · rcases Nat.lt_or_ge i (off + s.length) with h' | h'
    · rw [blit_before _ h', blit, blit, if_pos h, if_pos h, List.getD_append _ _ _ _ (by omega)]
    · rw [blit, blit, if_pos h, if_pos h', blit_after h', List.getD_append_right _ _ _ _ (by omega)]
      congr 1
      omega

theorem holds_nil (buf : Bytes) (off : Nat) : Holds buf off [] := fun _ h => absurd h (by simp)

/-- A copied string is there. -/
theorem holds_blit (buf : Bytes) (off : Nat) (s : List Char) : Holds (blit buf off s) off s := by
  intro i h
  rw [blit, if_pos (by omega), Nat.add_sub_cancel_left, List.getD_eq_getElem _ _ h]

/-- A copy further on leaves what the buffer holds before it. -/
theorem Holds.blit_of_le {buf : Bytes} {off off' : Nat} {s : List Char} (t : List Char) (hb : Holds buf off s)
    (h : off + s.length ≤ off') : Holds (blit buf off' t) off s := by
  intro i hi
  rw [blit_before t (by omega), hb i hi]

/-- A copy that ends before `off` leaves what the buffer holds from there. -/
theorem Holds.blit_of_ge {buf : Bytes} {off off' : Nat} {s t : List Char} (hb : Holds buf off s)
    (h : off' + t.length ≤ off) : Holds (blit buf off' t) off s := by
  intro i hi
  rw [blit_after (by omega), hb i hi]

/-- Adjacent pieces join. -/
theorem Holds.append {buf : Bytes} {off : Nat} {s t : List Char} (hs : Holds buf off s)
    (ht : Holds buf (off + s.length) t) : Holds buf off (s ++ t) := by
  intro i hi
  by_cases h : i < s.length
  · rw [List.getElem_append_left h, hs i h]
  · have hj : i - s.length < t.length := by simp only [List.length_append] at hi; omega
    have := ht (i - s.length) hj
    rw [List.getElem_append_right (by omega), ← this]
    congr 1; omega

theorem Holds.left {buf : Bytes} {off : Nat} {s t : List Char} (h : Holds buf off (s ++ t)) : Holds buf off s := by
  intro i hi
  rw [h i (by simp; omega), List.getElem_append_left hi]

theorem Holds.right {buf : Bytes} {off : Nat} {s t : List Char} (h : Holds buf off (s ++ t)) :
    Holds buf (off + s.length) t := by
  intro i hi
  have := h (s.length + i) (by simp; omega)
  rw [List.getElem_append_right (by omega)] at this
  simpa [Nat.add_assoc] using this

/-- The bytes that a buffer holds from its start, as a list. -/
theorem map_range_of_holds {buf : Bytes} {s : List Char} (h : Holds buf 0 s) :
    (List.range s.length).map buf = s := by
  apply List.ext_getElem (by simp)
  intro i h1 h2
  simpa using h i h2

/-- A buffer that holds a NUL-free string and the NUL after it reads as that string. -/
theorem cstr_of_holds {n : Nat} {buf : Bytes} {s : List Char} (hs : NulFree s) (h : Holds buf 0 (s ++ [nul]))
    (hn : s.length < n) : cstr n buf = s := by
  have hr : n = (s ++ [nul]).length + (n - s.length - 1) := by
    simp only [List.length_append, List.length_singleton]; omega
  rw [cstr, hr, List.range_add, List.map_append, map_range_of_holds h, List.append_assoc,
    List.takeWhile_append_of_pos]
  · simp
  · intro c hc
    simp only [bne_iff_ne]
    rintro rfl
    exact hs hc

/-- A buffer that holds a NUL-free string reads as one that begins with it. -/
theorem cstr_begins {n : Nat} {buf : Bytes} {s : List Char} (hs : NulFree s) (h : Holds buf 0 s) (hn : s.length ≤ n) :
    s <+: cstr n buf := by
  obtain ⟨k, rfl⟩ := Nat.exists_eq_add_of_le hn
  rw [cstr, List.range_add, List.map_append, map_range_of_holds h, List.takeWhile_append_of_pos]
  · exact List.prefix_append _ _
  · intro c hc
    simp only [bne_iff_ne]
    rintro rfl
    exact hs hc

end Cosmost.Lib
