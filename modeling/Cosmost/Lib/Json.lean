import Cosmost.Lib.Text
import Mathlib.Data.List.Basic
import Mathlib.Tactic.Common

/-!
# JSON texts

The grammar of JSON as relations between a text, what is read from its front and what is left of it. A string is read to
the quote that no backslash escapes, and what it denotes is decoded on the way.

- `Clean` strings need no escape. They are read as they stand (`Clean.unquotes`), and nothing else is (`Unquotes.of_clean`);
- `Unquotes.clean`: a string that is put between quotes as it stands, and that is read back, is clean;
- `Reads.member` and `Members.member`: what is read where a member with a clean key begins.

Texts are sequences of characters; `utf8` is the sequence of their bytes.
-/

namespace Cosmost.Lib

/-- A JSON value. The members of an object are in the order of the text. -/
inductive Json
  | null
  | bool (b : Bool)
  | num (text : List Char)
  | str (s : List Char)
  | arr (items : List Json)
  | obj (members : List (List Char × Json))

/-! ## Strings -/

/-- Characters that a string has as they stand. -/
def IsPlain (c : Char) : Prop := c ≠ '"' ∧ c ≠ '\\' ∧ ' ' ≤ c

instance (c : Char) : Decidable (IsPlain c) := inferInstanceAs (Decidable (_ ∧ _))

/-- A string without quotes, backslashes and control characters. -/
def Clean (s : List Char) : Prop := ∀ c ∈ s, IsPlain c

instance (s : List Char) : Decidable (Clean s) := List.decidableBAll IsPlain s

/-- What a backslash and one character stand for. -/
def simpleEscape : Char → Option Char
  | '"' => some '"'
  | '\\' => some '\\'
  | '/' => some '/'
  | 'b' => some (Char.ofNat 8)
  | 'f' => some (Char.ofNat 12)
  | 'n' => some '\n'
  | 'r' => some '\r'
  | 't' => some '\t'
  | _ => none

/-- A hexadecimal digit. -/
def hexDigit (c : Char) : Option Nat :=
  if '0' ≤ c ∧ c ≤ '9' then some (c.toNat - '0'.toNat)
  else if 'a' ≤ c ∧ c ≤ 'f' then some (c.toNat - 'a'.toNat + 10)
  else if 'A' ≤ c ∧ c ≤ 'F' then some (c.toNat - 'A'.toNat + 10)
  else none

/-- Four hexadecimal digits. -/
def hex4 (a b c d : Char) : Option Nat := do
  some ((((← hexDigit a) * 16 + (← hexDigit b)) * 16 + (← hexDigit c)) * 16 + (← hexDigit d))

/-- What follows the backslash, and the character that it stands for. -/
inductive Escape : List Char → Char → Prop
  | simple {e c : Char} : simpleEscape e = some c → Escape [e] c
  | unit {a b c d : Char} {n : Nat} : hex4 a b c d = some n → n < 0xd800 ∨ 0xe000 ≤ n →
      Escape ['u', a, b, c, d] (Char.ofNat n)
  /-- A surrogate pair. -/
  | pair {a b c d a' b' c' d' : Char} {hi lo : Nat} : hex4 a b c d = some hi → hex4 a' b' c' d' = some lo →
      0xd800 ≤ hi → hi < 0xdc00 → 0xdc00 ≤ lo → lo < 0xe000 →
      Escape ['u', a, b, c, d, '\\', 'u', a', b', c', d'] (Char.ofNat (0x10000 + (hi - 0xd800) * 0x400 + (lo - 0xdc00)))

/-- Reading a string behind its first quote: the text, the string and the rest. -/
inductive Unquotes : List Char → List Char → List Char → Prop
  | close (r : List Char) : Unquotes ('"' :: r) [] r
  | plain {c : Char} {i s r : List Char} : IsPlain c → Unquotes i s r → Unquotes (c :: i) (c :: s) r
  | escape {e : List Char} {c : Char} {i s r : List Char} : Escape e c → Unquotes i s r →
      Unquotes ('\\' :: (e ++ i)) (c :: s) r

theorem hexDigit_quote : hexDigit '"' = none := by decide

theorem hex4_ne_quote {a b c d : Char} {n : Nat} (h : hex4 a b c d = some n) :
    a ≠ '"' ∧ b ≠ '"' ∧ c ≠ '"' ∧ d ≠ '"' := by
  refine ⟨?_, ?_, ?_, ?_⟩ <;> rintro rfl <;> simp [hex4, hexDigit_quote] at h

/-- An escape has a quote only if it is an escaped quote. -/
theorem Escape.quote {x y : List Char} {c : Char} (h : Escape (x ++ '"' :: y) c) : x = [] ∧ y = [] ∧ c = '"' := by
  generalize he : x ++ '"' :: y = e at h
  have hmem : '"' ∈ e := by rw [← he]; simp
  cases h with
  | simple hs =>
    rw [List.mem_singleton] at hmem
    subst hmem
    cases x with
    | nil =>
      refine ⟨rfl, by simpa using he, ?_⟩
      simpa [simpleEscape, eq_comm] using hs
    | cons b x => simp at he
  | unit hx _ =>
    obtain ⟨ha, hb, hc, hd⟩ := hex4_ne_quote hx
    simp [ha.symm, hb.symm, hc.symm, hd.symm] at hmem
  | pair hx hx' _ _ _ _ =>
    obtain ⟨ha, hb, hc, hd⟩ := hex4_ne_quote hx
    obtain ⟨ha', hb', hc', hd'⟩ := hex4_ne_quote hx'
    simp [ha.symm, hb.symm, hc.symm, hd.symm, ha'.symm, hb'.symm, hc'.symm, hd'.symm] at hmem

/-- A clean string is read as it stands. -/
theorem Clean.unquotes {s : List Char} (h : Clean s) (r : List Char) : Unquotes (s ++ '"' :: r) s r := by
  induction s with
  | nil => exact Unquotes.close r
  | cons c s ih =>
    have hc := h c List.mem_cons_self
    exact Unquotes.plain hc (ih fun d hd => h d (List.mem_cons_of_mem _ hd))

/-- Nothing else is read where a clean string stands. -/
theorem Unquotes.of_clean {s d r r' : List Char} (hs : Clean s) (h : Unquotes (s ++ '"' :: r) d r') :
    d = s ∧ r' = r := by
  induction s generalizing d with
  | nil =>
    generalize hi : [] ++ '"' :: r = i at h
    cases h with
    | close => exact ⟨rfl, (List.cons.inj hi).2.symm⟩
    | plain hc _ => exact absurd (List.cons.inj hi).1.symm hc.1
    | escape _ _ => exact absurd (List.cons.inj hi).1 (by decide)
  | cons c s ih =>
    have hc := hs c List.mem_cons_self
    generalize hi : c :: s ++ '"' :: r = i at h
    cases h with
    | close => exact absurd (List.cons.inj hi).1 hc.1
    | plain hc' h =>
      obtain ⟨rfl, rfl⟩ := List.cons.inj hi
      obtain ⟨rfl, rfl⟩ := ih (fun d hd => hs d (List.mem_cons_of_mem _ hd)) h
      exact ⟨rfl, rfl⟩
    | escape _ _ => exact absurd (List.cons.inj hi).1 hc.2.1

theorem Escape.ne_nil {e : List Char} {c : Char} (h : Escape e c) : e ≠ [] := by
  cases h <;> simp

section Behind

variable {c : Char} (hc : IsPlain c)
include hc

/-- What is read where a string stands before a quote, the plain character `c` and a quote: no more characters than it
has, and as many only if it is clean; or the first quote was escaped, and `c` is the last character read. -/
theorem Unquotes.behind {s t d r : List Char} (h : Unquotes (s ++ '"' :: c :: '"' :: t) d r) :
    (d.length ≤ s.length ∧ (d.length = s.length → Clean s ∧ r = c :: '"' :: t)) ∨
      (s.getLast? = some '\\' ∧ d.getLast? = some c) := by
  generalize hi : s ++ '"' :: c :: '"' :: t = i at h
  induction h generalizing s with
  | close r =>
    refine Or.inl ⟨Nat.zero_le _, fun hlen => ?_⟩
    obtain rfl := List.length_eq_zero_iff.mp hlen.symm
    exact ⟨fun _ hx => absurd hx List.not_mem_nil, (List.cons.inj hi).2.symm⟩
  | @plain x i d r hx _ ih =>
    cases s with
    | nil => exact absurd (List.cons.inj hi).1.symm hx.1
    | cons y s =>
      obtain ⟨rfl, hrest⟩ := List.cons.inj hi
      rcases ih hrest with ⟨hle, heq⟩ | ⟨hs, hd⟩
      · refine Or.inl ⟨Nat.succ_le_succ hle, fun hlen => ?_⟩
        obtain ⟨hclean, hr⟩ := heq (Nat.succ.inj hlen)
        exact ⟨List.forall_mem_cons.mpr ⟨hx, hclean⟩, hr⟩
      · exact Or.inr ⟨by simp [List.getLast?_cons, hs], by simp [List.getLast?_cons, hd]⟩
  | @escape e x i d r he hread ih =>
    cases s with
    | nil => exact absurd (List.cons.inj hi).1 (by decide)
    | cons y s =>
      obtain ⟨rfl, hrest⟩ := List.cons.inj hi
      have hpos : 0 < e.length := List.length_pos_iff.mpr he.ne_nil
      rcases List.append_eq_append_iff.mp hrest with ⟨q, rfl, hq⟩ | ⟨q, rfl, hq⟩
      · cases q with
        | nil =>
          -- the escape ends where the string does
          rw [List.append_nil] at hpos
          rcases ih (s := []) hq with ⟨hle, -⟩ | ⟨hs, -⟩
          · refine Or.inl ⟨by simp only [List.length_cons, List.length_nil] at hle ⊢; omega, fun hlen => ?_⟩
            simp only [List.length_cons, List.length_nil] at hle hlen
            omega
          · simp at hs
        | cons b q =>
          -- the escape is that of the quote
          rw [List.cons_append, List.cons.injEq] at hq
          obtain ⟨rfl, hq⟩ := hq
          obtain ⟨rfl, rfl, rfl⟩ := he.quote
          obtain rfl : c :: '"' :: t = i := hq
          have hclean : Clean [c] := by simpa [Clean] using hc
          obtain ⟨rfl, rfl⟩ := Unquotes.of_clean hclean hread
          exact Or.inr ⟨rfl, rfl⟩
      · rcases ih hq.symm with ⟨hle, -⟩ | ⟨hs, hd⟩
        · refine Or.inl ⟨?_, fun hlen => ?_⟩
          all_goals simp only [List.length_cons, List.length_append] at *
          all_goals omega
        · refine Or.inr ⟨?_, by simp [List.getLast?_cons, hd]⟩
          rw [List.getLast?_cons, List.getLast?_append, hs]
          rfl

/-- **A string that is read back from between quotes is clean.** -/
theorem Unquotes.clean {s t r : List Char} (h : Unquotes (s ++ '"' :: c :: '"' :: t) s r) :
    Clean s ∧ r = c :: '"' :: t := by
  rcases h.behind hc with ⟨-, heq⟩ | ⟨hs, hd⟩
  · exact heq rfl
  · rw [hs, Option.some.injEq] at hd
    exact absurd hd.symm hc.2.1

end Behind

/-! ## Numbers -/

/-- One digit or more. -/
def Digits (ds : List Char) : Prop := ds ≠ [] ∧ ∀ c ∈ ds, c.isDigit = true

/-- Digits without a leading zero. -/
def IsWhole (ds : List Char) : Prop := ds = ['0'] ∨ Digits ds ∧ ds.head? ≠ some '0'

/-- The text of a number: a sign, a whole part, a fraction and an exponent. -/
def IsNumber (n : List Char) : Prop :=
  ∃ sign whole frac exp, n = sign ++ whole ++ frac ++ exp ∧ (sign = [] ∨ sign = ['-']) ∧ IsWhole whole ∧
    (frac = [] ∨ ∃ ds, Digits ds ∧ frac = '.' :: ds) ∧
    (exp = [] ∨ ∃ e s ds, (e = 'e' ∨ e = 'E') ∧ (s = [] ∨ s = ['+'] ∨ s = ['-']) ∧ Digits ds ∧ exp = e :: (s ++ ds))

/-- The characters of numbers. -/
def isNumeric (c : Char) : Bool := c.isDigit || c ∈ ['+', '-', '.', 'e', 'E']

theorem Digits.numeric {ds : List Char} (h : Digits ds) : ∀ c ∈ ds, isNumeric c = true :=
  fun c hc => by simp [isNumeric, h.2 c hc]

theorem IsWhole.numeric {ds : List Char} (h : IsWhole ds) : ∀ c ∈ ds, isNumeric c = true := by
  rcases h with rfl | h
  · exact List.forall_mem_singleton.mpr (by decide)
  · exact h.1.numeric

theorem IsNumber.numeric {n : List Char} (h : IsNumber n) : ∀ c ∈ n, isNumeric c = true := by
  obtain ⟨sign, whole, frac, exp, rfl, hsign, hwhole, hfrac, hexp⟩ := h
  have h1 : ∀ c ∈ sign, isNumeric c = true := by
    rcases hsign with rfl | rfl
    · simp
    · exact List.forall_mem_singleton.mpr (by decide)
  have h3 : ∀ c ∈ frac, isNumeric c = true := by
    rcases hfrac with rfl | ⟨ds, hds, rfl⟩
    · simp
    · exact List.forall_mem_cons.mpr ⟨by decide, hds.numeric⟩
  have h4 : ∀ c ∈ exp, isNumeric c = true := by
    rcases hexp with rfl | ⟨e, s, ds, he, hs, hds, rfl⟩
    · simp
    · refine List.forall_mem_cons.mpr ⟨by rcases he with rfl | rfl <;> decide, fun c hc => ?_⟩
      rcases List.mem_append.mp hc with hc | hc
      · rcases hs with rfl | rfl | rfl
        · simp at hc
        · obtain rfl := List.mem_singleton.mp hc; decide
        · obtain rfl := List.mem_singleton.mp hc; decide
      · exact hds.numeric c hc
  intro c hc
  simp only [List.mem_append] at hc
  rcases hc with ((hc | hc) | hc) | hc
  exacts [h1 c hc, hwhole.numeric c hc, h3 c hc, h4 c hc]

theorem IsNumber.ne_nil {n : List Char} (h : IsNumber n) : n ≠ [] := by
  obtain ⟨sign, whole, frac, exp, rfl, -, hwhole, -, -⟩ := h
  have hne : whole ≠ [] := by
    rcases hwhole with rfl | h
    · simp
    · exact h.1.1
  simp [hne]

/-! ## Values -/

/-- White space. -/
def isSpace (c : Char) : Bool := c ∈ [' ', '\t', '\n', '\r']

/-- The character `c` behind white space. -/
inductive Token (c : Char) : List Char → List Char → Prop
  | here (r : List Char) : Token c (c :: r) r
  | space {b : Char} {i r : List Char} : isSpace b = true → Token c i r → Token c (b :: i) r

mutual

/-- Reading a value: the text, the value and the rest. -/
inductive Reads : List Char → Json → List Char → Prop
  | space {b : Char} {i r : List Char} {v : Json} : isSpace b = true → Reads i v r → Reads (b :: i) v r
  | litNull (r : List Char) : Reads ('n' :: 'u' :: 'l' :: 'l' :: r) .null r
  | litTrue (r : List Char) : Reads ('t' :: 'r' :: 'u' :: 'e' :: r) (.bool true) r
  | litFalse (r : List Char) : Reads ('f' :: 'a' :: 'l' :: 's' :: 'e' :: r) (.bool false) r
  /-- A number ends where no character of numbers follows. -/
  | num {n r : List Char} : IsNumber n → (∀ c ∈ r.head?, isNumeric c = false) → Reads (n ++ r) (.num n) r
  | str {i s r : List Char} : Unquotes i s r → Reads ('"' :: i) (.str s) r
  | arrNil {i r : List Char} : Token ']' i r → Reads ('[' :: i) (.arr []) r
  | arrCons {i j r : List Char} {v : Json} {vs : List Json} : Reads i v j → Items j vs r →
      Reads ('[' :: i) (.arr (v :: vs)) r
  | objNil {i r : List Char} : Token '}' i r → Reads ('{' :: i) (.obj []) r
  | objCons {i i1 i2 i3 j r k : List Char} {v : Json} {ms : List (List Char × Json)} : Token '"' i i1 →
      Unquotes i1 k i2 → Token ':' i2 i3 → Reads i3 v j → Members j ms r → Reads ('{' :: i) (.obj ((k, v) :: ms)) r

/-- The items of an array behind the first. -/
inductive Items : List Char → List Json → List Char → Prop
  | stop {i r : List Char} : Token ']' i r → Items i [] r
  | more {i i1 j r : List Char} {v : Json} {vs : List Json} : Token ',' i i1 → Reads i1 v j → Items j vs r →
      Items i (v :: vs) r

/-- The members of an object behind the first. -/
inductive Members : List Char → List (List Char × Json) → List Char → Prop
  | stop {i r : List Char} : Token '}' i r → Members i [] r
  | more {i i0 i1 i2 i3 j r k : List Char} {v : Json} {ms : List (List Char × Json)} : Token ',' i i0 → Token '"' i0 i1 →
      Unquotes i1 k i2 → Token ':' i2 i3 → Reads i3 v j → Members j ms r → Members i ((k, v) :: ms) r

end

/-- A JSON text: one value, and nothing but white space behind it. -/
def IsJson (t : List Char) (v : Json) : Prop := ∃ r, Reads t v r ∧ ∀ c ∈ r, isSpace c = true

/-- A token is read where it stands. -/
theorem Token.of_here {c : Char} {i r : List Char} (hc : isSpace c = false) (h : Token c (c :: i) r) : r = i := by
  generalize hi : c :: i = t at h
  cases h with
  | here => exact (List.cons.inj hi).2.symm
  | space hb _ =>
    rw [← (List.cons.inj hi).1, hc] at hb
    cases hb

/-- A token is not read where another character stands. -/
theorem Token.head {c b : Char} {i r : List Char} (hb : isSpace b = false) (h : Token c (b :: i) r) : b = c := by
  generalize hi : b :: i = t at h
  cases h with
  | here => exact (List.cons.inj hi).1
  | space hb' _ =>
    rw [← (List.cons.inj hi).1, hb] at hb'
    cases hb'

/-- A number begins with a character of numbers. -/
theorem IsNumber.head {n r i : List Char} {c : Char} (hn : IsNumber n) (h : c :: i = n ++ r) : isNumeric c = true := by
  cases n with
  | nil => exact absurd rfl hn.ne_nil
  | cons d n =>
    rw [(List.cons.inj h).1]
    exact hn.numeric d List.mem_cons_self

/-- What comes before the first character that is not one of numbers. -/
theorem append_numeric_inj {m n r : List Char} {c : Char} {i : List Char} (hm : ∀ x ∈ m, isNumeric x = true)
    (hc : isNumeric c = false) (hn : ∀ x ∈ n, isNumeric x = true) (hr : ∀ x ∈ r.head?, isNumeric x = false)
    (h : m ++ c :: i = n ++ r) : n = m ∧ r = c :: i := by
  rcases List.append_eq_append_iff.mp h with ⟨q, rfl, hq⟩ | ⟨q, rfl, rfl⟩
  · cases q with
    | nil => exact ⟨List.append_nil m, hq.symm⟩
    | cons x q =>
      have hx := hn x (by simp)
      rw [(List.cons.inj hq).1, hx] at hc
      cases hc
  · cases q with
    | nil => exact ⟨(List.append_nil n).symm, rfl⟩
    | cons x q =>
      have hx := hr x rfl
      rw [hm x (by simp)] at hx
      cases hx

/-- Where a number stands, it is read. -/
theorem Reads.of_num {n i r : List Char} {c : Char} {v : Json} (hne : n ≠ []) (hn : ∀ x ∈ n, isNumeric x = true)
    (hc : isNumeric c = false) (h : Reads (n ++ c :: i) v r) : v = .num n ∧ r = c :: i := by
  obtain ⟨d, m, rfl⟩ := List.exists_cons_of_ne_nil hne
  have hd := hn d List.mem_cons_self
  generalize hi : d :: m ++ c :: i = t at h
  cases h with
  | num hn' hr =>
    obtain ⟨rfl, rfl⟩ := append_numeric_inj hn hc hn'.numeric hr hi
    exact ⟨rfl, rfl⟩
  | space hb _ =>
    rw [← (List.cons.inj hi).1] at hb
    have hb' : d ∈ [' ', '\t', '\n', '\r'] := by simpa [isSpace] using hb
    simp only [List.mem_cons, List.not_mem_nil, or_false] at hb'
    rcases hb' with rfl | rfl | rfl | rfl <;> exact absurd hd (by decide)
  | _ =>
    obtain rfl := (List.cons.inj hi).1
    exact absurd hd (by decide)

/-- Where a quote stands, a string is read. -/
theorem Reads.of_quote {i r : List Char} {v : Json} (h : Reads ('"' :: i) v r) : ∃ s, v = .str s ∧ Unquotes i s r := by
  generalize hi : '"' :: i = t at h
  cases h with
  | str hs =>
    obtain rfl := (List.cons.inj hi).2
    exact ⟨_, rfl, hs⟩
  | space hb _ =>
    rw [← (List.cons.inj hi).1] at hb
    exact absurd hb (by decide)
  | num hn _ => exact absurd (hn.head hi) (by decide)
  | _ => exact absurd (List.cons.inj hi).1 (by decide)

section Member

variable {k : List Char} (hk : Clean k)
include hk

/-- An object whose first member has a clean key. -/
theorem Reads.member {i r : List Char} {v : Json} (h : Reads ('{' :: '"' :: (k ++ '"' :: ':' :: i)) v r) :
    ∃ x j ms, v = .obj ((k, x) :: ms) ∧ Reads i x j ∧ Members j ms r := by
  generalize hi : '{' :: '"' :: (k ++ '"' :: ':' :: i) = t at h
  cases h with
  | objCons h1 h2 h3 h4 h5 =>
    obtain rfl := (List.cons.inj hi).2
    obtain rfl := h1.of_here (by decide)
    obtain ⟨rfl, rfl⟩ := Unquotes.of_clean hk h2
    obtain rfl := h3.of_here (by decide)
    exact ⟨_, _, _, rfl, h4, h5⟩
  | objNil h1 =>
    obtain rfl := (List.cons.inj hi).2
    exact absurd (h1.head (by decide)) (by decide)
  | space hb _ =>
    rw [← (List.cons.inj hi).1] at hb
    exact absurd hb (by decide)
  | num hn _ => exact absurd (hn.head hi) (by decide)
  | _ => exact absurd (List.cons.inj hi).1 (by decide)

/-- A further member with a clean key. -/
theorem Members.member {i r : List Char} {ms : List (List Char × Json)}
    (h : Members (',' :: '"' :: (k ++ '"' :: ':' :: i)) ms r) :
    ∃ x j ms', ms = (k, x) :: ms' ∧ Reads i x j ∧ Members j ms' r := by
  cases h with
  | stop h1 => exact absurd (h1.head (by decide)) (by decide)
  | more h0 h1 h2 h3 h4 h5 =>
    obtain rfl := h0.of_here (by decide)
    obtain rfl := h1.of_here (by decide)
    obtain ⟨rfl, rfl⟩ := Unquotes.of_clean hk h2
    obtain rfl := h3.of_here (by decide)
    exact ⟨_, _, _, rfl, h4, h5⟩

/-- The text of a first member is read. -/
theorem Reads.cons_member {i j r : List Char} {x : Json} {ms : List (List Char × Json)} (hx : Reads i x j)
    (hms : Members j ms r) : Reads ('{' :: '"' :: (k ++ '"' :: ':' :: i)) (.obj ((k, x) :: ms)) r :=
  Reads.objCons (Token.here _) (hk.unquotes _) (Token.here _) hx hms

/-- The text of a further member is read. -/
theorem Members.cons_member {i j r : List Char} {x : Json} {ms : List (List Char × Json)} (hx : Reads i x j)
    (hms : Members j ms r) : Members (',' :: '"' :: (k ++ '"' :: ':' :: i)) ((k, x) :: ms) r :=
  Members.more (Token.here _) (Token.here _) (hk.unquotes _) (Token.here _) hx hms

end Member

/-- The values of the members with a key. -/
def valuesAt (ms : List (List Char × Json)) (k : List Char) : List Json := (ms.filter (·.1 = k)).map (·.2)

theorem valuesAt_cons (k : List Char) (x : Json) (ms : List (List Char × Json)) (k' : List Char) :
    valuesAt ((k, x) :: ms) k' = if k = k' then x :: valuesAt ms k' else valuesAt ms k' := by
  by_cases h : k = k' <;> simp [valuesAt, h]

theorem valuesAt_append (ms ms' : List (List Char × Json)) (k : List Char) :
    valuesAt (ms ++ ms') k = valuesAt ms k ++ valuesAt ms' k := by
  rw [valuesAt, List.filter_append, List.map_append]
  rfl

/-! ## Bytes -/

/-- The bytes of a text. It is irreducible, so that no literal is encoded to compare two texts. -/
@[irreducible] def utf8 (s : List Char) : List UInt8 := s.flatMap String.utf8EncodeChar

theorem utf8_append (s t : List Char) : utf8 (s ++ t) = utf8 s ++ utf8 t := by
  rw [utf8, utf8, utf8, List.flatMap_append]

theorem utf8_quote_cons (s : List Char) : utf8 ('"' :: s) = 0x22 :: utf8 s := by
  rw [utf8, utf8, List.flatMap_cons]
  rfl

theorem utf8_injective : Function.Injective utf8 := by
  intro s t h
  rw [utf8, utf8] at h
  have henc : s.utf8Encode = t.utf8Encode := congrArg List.toByteArray h
  have hdec := congrArg ByteArray.utf8Decode? henc
  rw [List.utf8Decode?_utf8Encode, List.utf8Decode?_utf8Encode, Option.some.injEq] at hdec
  simpa using hdec

/-- The byte of a quote is in the bytes of quotes only. -/
theorem quote_mem_utf8 {s : List Char} (h : 0x22 ∈ utf8 s) : '"' ∈ s := by
  rw [utf8] at h
  obtain ⟨c, hc, hb⟩ := List.mem_flatMap.mp h
  have hbyte : ∀ n : Nat, UInt8.ofNat n = 0x22 → n % 256 = 0x22 := fun n hn => by
    have htoNat := congrArg UInt8.toNat hn
    simpa using htoNat
  have hval : c.val.toNat = 0x22 := by
    have hsmall : c.val.toNat < 0x110000 := by
      have hv := c.valid
      simp only [UInt32.isValidChar, Nat.isValidChar] at hv
      omega
    simp only [String.utf8EncodeChar] at hb
    split_ifs at hb
    · have h0 := hbyte _ (List.mem_singleton.mp hb).symm
      omega
    -- every byte of a longer sequence is 128 or more
    all_goals simp only [List.mem_cons, List.not_mem_nil, or_false] at hb
    · rcases hb with hb | hb <;> have h0 := hbyte _ hb.symm <;> omega
    · rcases hb with hb | hb | hb <;> have h0 := hbyte _ hb.symm <;> omega
    · rcases hb with hb | hb | hb | hb <;> have h0 := hbyte _ hb.symm <;> omega
  have hquote : c = '"' := Char.ext (UInt32.toNat_inj.mp hval)
  exact hquote ▸ hc

end Cosmost.Lib
