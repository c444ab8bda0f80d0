import Cosmost.Lib.Json

/-!
# JSON texts, printed and read

The grammar of `Json` is unambiguous (`IsJson.unique`): what a text denotes is what any reader finds in it. So it is enough
to know one way to read a text that was printed:

- `Prints t v`: the text `t` is read as `v` wherever it stands. Numbers (`prints_num`), clean strings between quotes
  (`prints_quoted`) and objects of printed members (`Prints.object`) are;
- `clean_of_among`: a string that was put between quotes among printed members, and that is read back, is clean.
-/

namespace Cosmost.Lib

/-! ## Clean strings -/

theorem Clean.append {s t : List Char} (hs : Clean s) (ht : Clean t) : Clean (s ++ t) := fun c hc =>
  (List.mem_append.mp hc).elim (hs c) (ht c)

theorem Clean.dropLast {s : List Char} (h : Clean s) : Clean s.dropLast := fun c hc => h c (List.dropLast_subset s hc)

theorem Clean.fits {s : List Char} (h : Clean s) (n : Nat) : Clean (Lib.fits n s) := fun c hc =>
  h c (List.mem_of_mem_take hc)

/-- A clean string has no NUL. -/
theorem Clean.nulFree {s : List Char} (h : Clean s) : NulFree s := fun hn => absurd (h nul hn).2.2 (by decide)

theorem IsNumber.nulFree {n : List Char} (h : IsNumber n) : NulFree n := fun hn => absurd (h.numeric nul hn) (by decide)

/-- A digit needs no escape. -/
theorem isPlain_of_isDigit {c : Char} (h : c.isDigit = true) : IsPlain c := by
  simp only [Char.isDigit, Bool.and_eq_true, decide_eq_true_eq] at h
  refine ⟨?_, ?_, ?_⟩
  · rintro rfl
    exact absurd h.1 (by decide)
  · rintro rfl
    exact absurd h.2 (by decide)
  · exact UInt32.le_trans (show (' ' : Char).val ≤ '0'.val by decide) h.1

theorem clean_decimal (n : Nat) : Clean (decimal n) := fun _ hc => isPlain_of_isDigit (isDigit_of_mem_decimal hc)

/-! ## Reading is unambiguous -/

/-- One character stands behind the white space. -/
theorem Token.same {c d : Char} (hc : isSpace c = false) (hd : isSpace d = false) {i r r' : List Char}
    (h : Token c i r) (h' : Token d i r') : c = d ∧ r = r' := by
  induction h with
  | here r =>
    obtain rfl := h'.head hc
    exact ⟨rfl, (h'.of_here hc).symm⟩
  | @space b i r hb _ ih =>
    cases h' with
    | here => rw [hd] at hb; cases hb
    | space _ h' => exact ih h'

theorem simpleEscape_unit : simpleEscape 'u' = none := by decide

/-- An escape ends where it does, and stands for one character. -/
theorem Escape.unique {e e' i i' : List Char} {c c' : Char} (h : Escape e c) (h' : Escape e' c')
    (heq : e ++ i = e' ++ i') : c = c' ∧ i = i' := by
  cases h with
  | simple hs =>
    cases h' with
    | simple hs' =>
      obtain ⟨rfl, rfl⟩ := List.cons.inj heq
      exact ⟨Option.some.inj (hs.symm.trans hs'), rfl⟩
    | unit =>
      rw [(List.cons.inj heq).1, simpleEscape_unit] at hs
      cases hs
    | pair =>
      rw [(List.cons.inj heq).1, simpleEscape_unit] at hs
      cases hs
  | unit hx hr =>
    cases h' with
    | simple hs =>
      rw [← (List.cons.inj heq).1, simpleEscape_unit] at hs
      cases hs
    | unit hx' _ =>
      simp only [List.cons_append, List.nil_append, List.cons.injEq, true_and] at heq
      obtain ⟨rfl, rfl, rfl, rfl, rfl⟩ := heq
      rw [hx, Option.some.injEq] at hx'
      exact ⟨by rw [hx'], rfl⟩
    | pair hx' _ hhi hhi' _ _ =>
      simp only [List.cons_append, List.nil_append, List.cons.injEq, true_and] at heq
      obtain ⟨rfl, rfl, rfl, rfl, -⟩ := heq
      rw [hx, Option.some.injEq] at hx'
      omega
  | pair hx hy hhi hhi' _ _ =>
    cases h' with
    | simple hs =>
      rw [← (List.cons.inj heq).1, simpleEscape_unit] at hs
      cases hs
    | unit hx' hr =>
      simp only [List.cons_append, List.nil_append, List.cons.injEq, true_and] at heq
      obtain ⟨rfl, rfl, rfl, rfl, -⟩ := heq
      rw [hx, Option.some.injEq] at hx'
      omega
    | pair hx' hy' _ _ _ _ =>
      simp only [List.cons_append, List.nil_append, List.cons.injEq, true_and] at heq
      obtain ⟨rfl, rfl, rfl, rfl, rfl, rfl, rfl, rfl, rfl⟩ := heq
      rw [hx, Option.some.injEq] at hx'
      rw [hy, Option.some.injEq] at hy'
      exact ⟨by rw [hx', hy'], rfl⟩

/-- A string is read in one way. -/
theorem Unquotes.unique {i s r : List Char} (h : Unquotes i s r) : ∀ {s' r' : List Char}, Unquotes i s' r' →
    s = s' ∧ r = r' := by
  induction h with
  | close r =>
    intro s' r' h'
    generalize hi : '"' :: r = t at h'
    cases h' with
    | close => exact ⟨rfl, (List.cons.inj hi).2⟩
    | plain hc _ => exact absurd (List.cons.inj hi).1.symm hc.1
    | escape _ _ => exact absurd (List.cons.inj hi).1 (by decide)
  | @plain c i s r hc _ ih =>
    intro s' r' h'
    generalize hi : c :: i = t at h'
    cases h' with
    | close => exact absurd (List.cons.inj hi).1 hc.1
    | plain _ h' =>
      obtain ⟨rfl, rfl⟩ := List.cons.inj hi
      obtain ⟨rfl, rfl⟩ := ih h'
      exact ⟨rfl, rfl⟩
    | escape _ _ => exact absurd (List.cons.inj hi).1 hc.2.1
  | @escape e c i s r he _ ih =>
    intro s' r' h'
    generalize hi : '\\' :: (e ++ i) = t at h'
    cases h' with
    | close => exact absurd (List.cons.inj hi).1 (by decide)
    | plain hc _ => exact absurd (List.cons.inj hi).1.symm hc.2.1
    | escape he' h' =>
      obtain ⟨rfl, rfl⟩ := he.unique he' (List.cons.inj hi).2
      obtain ⟨rfl, rfl⟩ := ih h'
      exact ⟨rfl, rfl⟩

/-- Numbers have no white space. -/
theorem not_isSpace_of_numeric {c : Char} (h : isNumeric c = true) : isSpace c = false := by
  rw [Bool.eq_false_iff]
  intro hs
  have hmem : c ∈ [' ', '\t', '\n', '\r'] := by simpa [isSpace] using hs
  simp only [List.mem_cons, List.not_mem_nil, or_false] at hmem
  rcases hmem with rfl | rfl | rfl | rfl <;> exact absurd h (by decide)

/-- A value does not begin with the end of an array. -/
theorem Reads.not_token {i r r' : List Char} {v : Json} (h : Token ']' i r) (h' : Reads i v r') : False := by
  induction h generalizing v r' with
  | here r =>
    generalize hi : ']' :: r = t at h'
    cases h' with
    | space hb _ =>
      rw [← (List.cons.inj hi).1] at hb
      exact absurd hb (by decide)
    | num hn _ => exact absurd (hn.head hi) (by decide)
    | _ => exact absurd (List.cons.inj hi).1 (by decide)
  | @space b i r hb _ ih =>
    generalize hi : b :: i = t at h'
    cases h' with
    | space _ h' =>
      obtain rfl := (List.cons.inj hi).2
      exact ih h'
    | num hn _ =>
      rw [not_isSpace_of_numeric (hn.head hi)] at hb
      cases hb
    | _ =>
      rw [(List.cons.inj hi).1] at hb
      exact absurd hb (by decide)

/-- Where a number is read, nothing else is. -/
theorem Reads.num_unique {n r r' : List Char} {v : Json} (hn : IsNumber n) (hr : ∀ c ∈ r.head?, isNumeric c = false)
    (h : Reads (n ++ r) v r') : v = .num n ∧ r' = r := by
  cases r with
  | cons c i => exact Reads.of_num hn.ne_nil hn.numeric (hr c rfl) h
  | nil =>
    rw [List.append_nil] at h
    obtain ⟨d, m, rfl⟩ := List.exists_cons_of_ne_nil hn.ne_nil
    have hd := hn.numeric d List.mem_cons_self
    generalize hi : d :: m = t at h
    cases h with
    | @num n' r' hn' hr' =>
      cases r' with
      | nil =>
        rw [List.append_nil] at hi ⊢
        subst hi
        exact ⟨rfl, rfl⟩
      | cons c i =>
        have hc := hr' c rfl
        rw [hn.numeric c (by rw [hi]; simp)] at hc
        cases hc
    | space hb _ =>
      rw [← (List.cons.inj hi).1, not_isSpace_of_numeric hd] at hb
      cases hb
    | _ =>
      obtain rfl := (List.cons.inj hi).1
      exact absurd hd (by decide)


/-- White space before a value is skipped. -/
theorem Reads.of_space {b : Char} {i r : List Char} {v : Json} (hb : isSpace b = true) (h : Reads (b :: i) v r) :
    Reads i v r := by
  generalize hi : b :: i = t at h
  cases h with
  | space _ h =>
    obtain rfl := (List.cons.inj hi).2
    exact h
  | num hn _ =>
    rw [not_isSpace_of_numeric (hn.head hi)] at hb
    cases hb
  | _ =>
    rw [(List.cons.inj hi).1] at hb
    exact absurd hb (by decide)

/-- What is read behind a bracket. -/
theorem Reads.of_bracket {i r : List Char} {v : Json} (h : Reads ('[' :: i) v r) :
    (v = .arr [] ∧ Token ']' i r) ∨ ∃ x xs j, v = .arr (x :: xs) ∧ Reads i x j ∧ Items j xs r := by
  generalize hi : '[' :: i = t at h
  cases h with
  | arrNil ht =>
    obtain rfl := (List.cons.inj hi).2
    exact Or.inl ⟨rfl, ht⟩
  | arrCons hx hxs =>
    obtain rfl := (List.cons.inj hi).2
    exact Or.inr ⟨_, _, _, rfl, hx, hxs⟩
  | space hb _ =>
    rw [← (List.cons.inj hi).1] at hb
    exact absurd hb (by decide)
  | num hn _ => exact absurd (hn.head hi) (by decide)
  | _ => exact absurd (List.cons.inj hi).1 (by decide)

/-- What is read behind a brace. -/
theorem Reads.of_brace {i r : List Char} {v : Json} (h : Reads ('{' :: i) v r) :
    (v = .obj [] ∧ Token '}' i r) ∨ ∃ k x ms i1 i2 i3 j, v = .obj ((k, x) :: ms) ∧ Token '"' i i1 ∧ Unquotes i1 k i2 ∧
      Token ':' i2 i3 ∧ Reads i3 x j ∧ Members j ms r := by
  generalize hi : '{' :: i = t at h
  cases h with
  | objNil ht =>
    obtain rfl := (List.cons.inj hi).2
    exact Or.inl ⟨rfl, ht⟩
  | objCons h1 h2 h3 h4 h5 =>
    obtain rfl := (List.cons.inj hi).2
    exact Or.inr ⟨_, _, _, _, _, _, _, rfl, h1, h2, h3, h4, h5⟩
  | space hb _ =>
    rw [← (List.cons.inj hi).1] at hb
    exact absurd hb (by decide)
  | num hn _ => exact absurd (hn.head hi) (by decide)
  | _ => exact absurd (List.cons.inj hi).1 (by decide)

/-- The literals. -/
def literals : List (List Char × Json) :=
  [(['n', 'u', 'l', 'l'], .null), (['t', 'r', 'u', 'e'], .bool true), (['f', 'a', 'l', 's', 'e'], .bool false)]

/-- Where a literal stands, it is read. -/
theorem Reads.of_literal {l r r' : List Char} {v w : Json} (hl : (l, w) ∈ literals) (h : Reads (l ++ r) v r') :
    w = v ∧ r = r' := by
  simp only [literals, List.mem_cons, Prod.mk.injEq, List.not_mem_nil, or_false] at hl
  rcases hl with ⟨rfl, rfl⟩ | ⟨rfl, rfl⟩ | ⟨rfl, rfl⟩
  all_goals
    simp only [List.cons_append, List.nil_append] at h
    generalize hi : List.cons _ _ = t at h
    cases h with
    | space hb _ =>
      rw [← (List.cons.inj hi).1] at hb
      exact absurd hb (by decide)
    | num hn _ => exact absurd (hn.head hi) (by decide)
    | _ => first | exact ⟨rfl, by simpa using hi⟩ | exact absurd (List.cons.inj hi).1 (by decide)

/-- A key and the value behind it, in one way. -/
theorem key_unique {i i1 i1' i2 i2' i3 i3' k k' : List Char} (h1 : Token '"' i i1) (h1' : Token '"' i i1')
    (h2 : Unquotes i1 k i2) (h2' : Unquotes i1' k' i2') (h3 : Token ':' i2 i3) (h3' : Token ':' i2' i3') :
    k = k' ∧ i3 = i3' := by
  obtain rfl := (h1.same rfl rfl h1').2
  obtain ⟨rfl, rfl⟩ := h2.unique h2'
  exact ⟨rfl, (h3.same rfl rfl h3').2⟩

mutual

theorem Reads.unique : ∀ {i : List Char} {v : Json} {r : List Char}, Reads i v r → ∀ {v' : Json} {r' : List Char},
    Reads i v' r' → v = v' ∧ r = r'
  | _, _, _, .space hb h, _, _, h' => Reads.unique h (h'.of_space hb)
  | _, _, _, .litNull _, _, _, h' => Reads.of_literal (l := ['n', 'u', 'l', 'l']) (by simp [literals]) h'
  | _, _, _, .litTrue _, _, _, h' => Reads.of_literal (l := ['t', 'r', 'u', 'e']) (by simp [literals]) h'
  | _, _, _, .litFalse _, _, _, h' => Reads.of_literal (l := ['f', 'a', 'l', 's', 'e']) (by simp [literals]) h'
  | _, _, _, .num hn hr, _, _, h' => by
    obtain ⟨rfl, rfl⟩ := Reads.num_unique hn hr h'
    exact ⟨rfl, rfl⟩
  | _, _, _, .str hs, _, _, h' => by
    obtain ⟨s, rfl, hs'⟩ := h'.of_quote
    obtain ⟨rfl, rfl⟩ := hs.unique hs'
    exact ⟨rfl, rfl⟩
  | _, _, _, .arrNil ht, _, _, h' => by
    rcases h'.of_bracket with ⟨rfl, ht'⟩ | ⟨x, xs, j, rfl, hx, -⟩
    · exact ⟨rfl, (ht.same rfl rfl ht').2⟩
    · exact (Reads.not_token ht hx).elim
  | _, _, _, .arrCons hx hxs, _, _, h' => by
    rcases h'.of_bracket with ⟨rfl, ht'⟩ | ⟨x, xs, j, rfl, hx', hxs'⟩
    · exact (Reads.not_token ht' hx).elim
    · obtain ⟨rfl, rfl⟩ := Reads.unique hx hx'
      obtain ⟨rfl, rfl⟩ := Items.unique hxs hxs'
      exact ⟨rfl, rfl⟩
  | _, _, _, .objNil ht, _, _, h' => by
    rcases h'.of_brace with ⟨rfl, ht'⟩ | ⟨k, x, ms, i1, i2, i3, j, rfl, h1, -⟩
    · exact ⟨rfl, (ht.same rfl rfl ht').2⟩
    · exact absurd (ht.same rfl rfl h1).1 (by decide)
  | _, _, _, .objCons h1 h2 h3 h4 h5, _, _, h' => by
    rcases h'.of_brace with ⟨rfl, ht'⟩ | ⟨k, x, ms, i1, i2, i3, j, rfl, h1', h2', h3', h4', h5'⟩
    · exact absurd (h1.same rfl rfl ht').1 (by decide)
    · obtain ⟨rfl, rfl⟩ := key_unique h1 h1' h2 h2' h3 h3'
      obtain ⟨rfl, rfl⟩ := Reads.unique h4 h4'
      obtain ⟨rfl, rfl⟩ := Members.unique h5 h5'
      exact ⟨rfl, rfl⟩

theorem Items.unique : ∀ {i : List Char} {vs : List Json} {r : List Char}, Items i vs r →
    ∀ {vs' : List Json} {r' : List Char}, Items i vs' r' → vs = vs' ∧ r = r'
  | _, _, _, .stop ht, _, _, h' => by
    cases h' with
    | stop ht' => exact ⟨rfl, (ht.same rfl rfl ht').2⟩
    | more ht' _ _ => exact absurd (ht.same rfl rfl ht').1 (by decide)
  | _, _, _, .more ht hv hvs, _, _, h' => by
    cases h' with
    | stop ht' => exact absurd (ht.same rfl rfl ht').1 (by decide)
    | more ht' hv' hvs' =>
      obtain rfl := (ht.same rfl rfl ht').2
      obtain ⟨rfl, rfl⟩ := Reads.unique hv hv'
      obtain ⟨rfl, rfl⟩ := Items.unique hvs hvs'
      exact ⟨rfl, rfl⟩

theorem Members.unique : ∀ {i : List Char} {ms : List (List Char × Json)} {r : List Char}, Members i ms r →
    ∀ {ms' : List (List Char × Json)} {r' : List Char}, Members i ms' r' → ms = ms' ∧ r = r'
  | _, _, _, .stop ht, _, _, h' => by
    cases h' with
    | stop ht' => exact ⟨rfl, (ht.same rfl rfl ht').2⟩
    | more ht' _ _ _ _ _ => exact absurd (ht.same rfl rfl ht').1 (by decide)
  | _, _, _, .more h0 h1 h2 h3 h4 h5, _, _, h' => by
    cases h' with
    | stop ht' => exact absurd (h0.same rfl rfl ht').1 (by decide)
    | more h0' h1' h2' h3' h4' h5' =>
      obtain rfl := (h0.same rfl rfl h0').2
      obtain ⟨rfl, rfl⟩ := key_unique h1 h1' h2 h2' h3 h3'
      obtain ⟨rfl, rfl⟩ := Reads.unique h4 h4'
      obtain ⟨rfl, rfl⟩ := Members.unique h5 h5'
      exact ⟨rfl, rfl⟩

end

/-- **A JSON text has one value.** -/
theorem IsJson.unique {t : List Char} {v v' : Json} (h : IsJson t v) (h' : IsJson t v') : v = v' := by
  obtain ⟨r, hr, -⟩ := h
  obtain ⟨r', hr', -⟩ := h'
  exact (hr.unique hr').1

open Classical in
/-- The value of a text, if it is a JSON text. -/
noncomputable def valueOf (t : List Char) : Option Json := if h : ∃ v, IsJson t v then some h.choose else none

theorem IsJson.valueOf {t : List Char} {v : Json} (h : IsJson t v) : valueOf t = some v := by
  have hex : ∃ v, IsJson t v := ⟨v, h⟩
  rw [Lib.valueOf, dif_pos hex, hex.choose_spec.unique h]

/-! ## Printed values -/

/-- A text that is read as a value wherever no character of numbers follows. -/
def Prints (t : List Char) (v : Json) : Prop := ∀ r : List Char, (∀ c ∈ r.head?, isNumeric c = false) → Reads (t ++ r) v r

/-- Text between quotes. -/
def quoted (s : List Char) : List Char := '"' :: (s ++ ['"'])

/-- Printed members behind the first, and the end of their object. -/
def membersText : List (List Char × List Char) → List Char
  | [] => ['}']
  | (k, t) :: ms => ',' :: '"' :: (k ++ '"' :: ':' :: (t ++ membersText ms))

/-- An object of printed members. -/
def objectText : List (List Char × List Char) → List Char
  | [] => ['{', '}']
  | (k, t) :: ms => '{' :: '"' :: (k ++ '"' :: ':' :: (t ++ membersText ms))

theorem Prints.isJson {t : List Char} {v : Json} (h : Prints t v) : IsJson t v :=
  ⟨[], by simpa using h [] (by simp), by simp⟩

/-- Nothing else is read where a printed value stands. -/
theorem Prints.reads {t r r' : List Char} {v v' : Json} (h : Prints t v) (hr : ∀ c ∈ r.head?, isNumeric c = false)
    (h' : Reads (t ++ r) v' r') : v' = v ∧ r' = r := by
  obtain ⟨rfl, rfl⟩ := (h r hr).unique h'
  exact ⟨rfl, rfl⟩

theorem prints_num {n : List Char} (hn : IsNumber n) : Prints n (.num n) := fun _ hr => Reads.num hn hr

theorem prints_quoted {s : List Char} (hs : Clean s) : Prints (quoted s) (.str s) := by
  intro r _
  rw [quoted, List.cons_append, List.append_assoc]
  exact Reads.str (hs.unquotes r)

/-- What follows a member is no part of its number. -/
theorem membersText_head (ms : List (List Char × List Char)) (r : List Char) :
    ∀ c ∈ (membersText ms ++ r).head?, isNumeric c = false := by
  intro c hc
  cases ms with
  | nil =>
    obtain rfl := Option.mem_some_iff.mp hc
    decide
  | cons m ms =>
    obtain rfl := Option.mem_some_iff.mp hc
    decide

/-- A member as printed, and its key and value. -/
structure PrintsMember (m : List Char × List Char) (v : List Char × Json) : Prop where
  key : m.1 = v.1
  clean : Clean m.1
  value : Prints m.2 v.2

theorem PrintsMember.str {k s : List Char} (hk : Clean k) (hs : Clean s) : PrintsMember (k, quoted s) (k, .str s) :=
  ⟨rfl, hk, prints_quoted hs⟩

theorem PrintsMember.num {k n : List Char} (hk : Clean k) (hn : IsNumber n) : PrintsMember (k, n) (k, .num n) :=
  ⟨rfl, hk, prints_num hn⟩

theorem members_membersText {ms : List (List Char × List Char)} {vs : List (List Char × Json)}
    (h : List.Forall₂ PrintsMember ms vs) (r : List Char) : Members (membersText ms ++ r) vs r := by
  induction h with
  | nil => exact Members.stop (Token.here r)
  | @cons m v ms vs hm _ ih =>
    obtain ⟨k, t⟩ := m
    obtain ⟨k', x⟩ := v
    obtain ⟨rfl, hclean, hvalue⟩ := hm
    have hread := hvalue _ (membersText_head ms r)
    simpa [membersText] using Members.cons_member hclean hread ih

/-- **Printed members are read back, in order.** -/
theorem Prints.object {ms : List (List Char × List Char)} {vs : List (List Char × Json)}
    (h : List.Forall₂ PrintsMember ms vs) : Prints (objectText ms) (.obj vs) := by
  intro r _
  cases h with
  | nil => exact Reads.objNil (Token.here r)
  | @cons m v ms vs hm hms =>
    obtain ⟨k, t⟩ := m
    obtain ⟨k', x⟩ := v
    obtain ⟨rfl, hclean, hvalue⟩ := hm
    have hread := hvalue _ (membersText_head ms r)
    simpa [objectText] using Reads.cons_member hclean hread (members_membersText hms r)

/-! ## No NUL in a text -/

theorem Escape.nulFree {e : List Char} {c : Char} (h : Escape e c) : NulFree e := by
  have hhex : hexDigit nul = none := by decide
  have hdigits : ∀ {a b c d : Char} {n : Nat}, hex4 a b c d = some n → nul ∉ [a, b, c, d] := by
    intro a b c d n hn hmem
    simp only [List.mem_cons, List.not_mem_nil, or_false] at hmem
    rcases hmem with rfl | rfl | rfl | rfl <;> simp [hex4, hhex] at hn
  have hu : nul ≠ 'u' := by decide
  have hslash : nul ≠ '\\' := by decide
  cases h with
  | simple hs =>
    intro hmem
    rw [List.mem_singleton] at hmem
    rw [← hmem] at hs
    cases hs
  | unit hx _ => simpa [NulFree, hu] using hdigits hx
  | pair hx hx' _ _ _ _ =>
    have h1 := hdigits hx
    have h2 := hdigits hx'
    simp only [List.mem_cons, List.not_mem_nil, or_false, not_or] at h1 h2
    simp [NulFree, hu, hslash, h1, h2]

theorem nul_mem_behind (l : List Char) (hl : nul ∉ l) {r : List Char} (h : nul ∈ l ++ r) : nul ∈ r :=
  (List.mem_append.mp h).resolve_left hl

theorem Unquotes.nul_mem {i s r : List Char} (h : Unquotes i s r) : nul ∈ i → nul ∈ r := by
  induction h with
  | close r => exact fun hi => (List.mem_cons.mp hi).resolve_left (by decide)
  | plain hc _ ih =>
    intro hi
    apply ih
    apply (List.mem_cons.mp hi).resolve_left
    rintro rfl
    exact absurd hc.2.2 (by decide)
  | escape he _ ih =>
    intro hi
    apply ih
    exact nul_mem_behind _ he.nulFree ((List.mem_cons.mp hi).resolve_left (by decide))

theorem ne_nul_of_isSpace {b : Char} (h : isSpace b = true) : nul ≠ b := by
  rintro rfl
  exact absurd h (by decide)

theorem Token.nul_mem {c : Char} (hc : nul ≠ c) {i r : List Char} (h : Token c i r) : nul ∈ i → nul ∈ r := by
  induction h with
  | here r => exact fun hi => (List.mem_cons.mp hi).resolve_left hc
  | space hb _ ih => exact fun hi => ih ((List.mem_cons.mp hi).resolve_left (ne_nul_of_isSpace hb))

mutual

/-- A NUL is not in what is read. -/
theorem Reads.nul_mem : ∀ {i : List Char} {v : Json} {r : List Char}, Reads i v r → nul ∈ i → nul ∈ r
  | _, _, _, .space hb h, hi => h.nul_mem ((List.mem_cons.mp hi).resolve_left (ne_nul_of_isSpace hb))
  | _, _, _, .litNull r, hi => nul_mem_behind ['n', 'u', 'l', 'l'] (by decide) hi
  | _, _, _, .litTrue r, hi => nul_mem_behind ['t', 'r', 'u', 'e'] (by decide) hi
  | _, _, _, .litFalse r, hi => nul_mem_behind ['f', 'a', 'l', 's', 'e'] (by decide) hi
  | _, _, _, .num hn _, hi => nul_mem_behind _ hn.nulFree hi
  | _, _, _, .str hs, hi => hs.nul_mem ((List.mem_cons.mp hi).resolve_left (by decide))
  | _, _, _, .arrNil ht, hi => ht.nul_mem (by decide) ((List.mem_cons.mp hi).resolve_left (by decide))
  | _, _, _, .arrCons h hs, hi => hs.nul_mem (h.nul_mem ((List.mem_cons.mp hi).resolve_left (by decide)))
  | _, _, _, .objNil ht, hi => ht.nul_mem (by decide) ((List.mem_cons.mp hi).resolve_left (by decide))
  | _, _, _, .objCons h1 h2 h3 h4 h5, hi => by
    have hkey := h2.nul_mem (h1.nul_mem (by decide) ((List.mem_cons.mp hi).resolve_left (by decide)))
    exact h5.nul_mem (h4.nul_mem (h3.nul_mem (by decide) hkey))

theorem Items.nul_mem : ∀ {i : List Char} {vs : List Json} {r : List Char}, Items i vs r → nul ∈ i → nul ∈ r
  | _, _, _, .stop ht, hi => ht.nul_mem (by decide) hi
  | _, _, _, .more h1 h2 h3, hi => h3.nul_mem (h2.nul_mem (h1.nul_mem (by decide) hi))

theorem Members.nul_mem : ∀ {i : List Char} {ms : List (List Char × Json)} {r : List Char}, Members i ms r →
    nul ∈ i → nul ∈ r
  | _, _, _, .stop ht, hi => ht.nul_mem (by decide) hi
  | _, _, _, .more h0 h1 h2 h3 h4 h5, hi => by
    have hkey := h2.nul_mem (h1.nul_mem (by decide) (h0.nul_mem (by decide) hi))
    exact h5.nul_mem (h4.nul_mem (h3.nul_mem (by decide) hkey))

end

/-- **A JSON text has no NUL.** -/
theorem IsJson.nulFree {t : List Char} {v : Json} (h : IsJson t v) : NulFree t := by
  obtain ⟨r, hread, hspace⟩ := h
  intro hmem
  exact ne_nul_of_isSpace (hspace nul (hread.nul_mem hmem)) rfl

/-! ## A string among printed members -/

section Among

variable {ms : List (List Char × List Char)} {vs : List (List Char × Json)} {k s k' t' : List Char}
  {post : List (List Char × List Char)} (hms : List.Forall₂ PrintsMember ms vs) (hk : Clean k)
include hms hk

/-- What is read behind printed members where a string is put between quotes. -/
theorem Members.among {js : List (List Char × Json)} {r : List Char}
    (h : Members (membersText (ms ++ (k, quoted s) :: (k', t') :: post)) js r) :
    ∃ d i j js', js = vs ++ (k, .str d) :: js' ∧ Unquotes (s ++ '"' :: ',' :: '"' :: i) d j := by
  induction hms generalizing js with
  | nil =>
    simp only [List.nil_append, membersText, quoted, List.cons_append, List.append_assoc] at h
    obtain ⟨x, j, js', rfl, hx, -⟩ := h.member hk
    obtain ⟨d, rfl, hd⟩ := hx.of_quote
    exact ⟨d, _, j, js', rfl, hd⟩
  | @cons m v ms vs hm _ ih =>
    obtain ⟨n, t⟩ := m
    obtain ⟨n', x⟩ := v
    obtain ⟨rfl, hclean, hvalue⟩ := hm
    simp only [List.cons_append, membersText] at h
    obtain ⟨x', j, js', rfl, hx, hjs⟩ := h.member hclean
    have hhead := membersText_head (ms ++ (k, quoted s) :: (k', t') :: post) []
    rw [List.append_nil] at hhead
    obtain ⟨rfl, rfl⟩ := hvalue.reads hhead hx
    obtain ⟨d, i, j, js'', rfl, hd⟩ := ih hjs
    exact ⟨d, i, j, js'', rfl, hd⟩

/-- **A string that is read back from between quotes, among printed members, is clean.** -/
theorem clean_of_among (hnot : ∀ v ∈ vs, v.1 ≠ k) {n t : List Char} {x : Json} (hn : Clean n) (ht : Prints t x)
    (hne : n ≠ k) {js : List (List Char × Json)}
    (h : IsJson (objectText ((n, t) :: (ms ++ (k, quoted s) :: (k', t') :: post))) (.obj js))
    (hread : valuesAt js k = [.str s]) : Clean s := by
  obtain ⟨r, h, -⟩ := h
  simp only [objectText] at h
  obtain ⟨x', j, js', hjs, hx, hrest⟩ := h.member hn
  obtain rfl := Json.obj.inj hjs
  have hhead := membersText_head (ms ++ (k, quoted s) :: (k', t') :: post) []
  rw [List.append_nil] at hhead
  obtain ⟨rfl, rfl⟩ := ht.reads hhead hx
  obtain ⟨d, i, j, js'', rfl, hd⟩ := hrest.among hms hk
  have hvs : valuesAt vs k = [] := by
    simp only [valuesAt, List.map_eq_nil_iff, List.filter_eq_nil_iff, decide_eq_true_eq]
    exact hnot
  rw [valuesAt_cons, if_neg hne, valuesAt_append, hvs, List.nil_append, valuesAt_cons, if_pos rfl] at hread
  obtain rfl : d = s := by simpa using (List.cons.inj hread).1
  exact (hd.clean (by decide)).1

end Among

end Cosmost.Lib
