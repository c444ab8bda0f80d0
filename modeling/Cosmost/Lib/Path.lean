import Cosmost.Lib.Text
import Mathlib.Data.List.Basic
import Mathlib.Data.List.TakeWhile
import Mathlib.Tactic.Common

/-!
# Paths by components

`components p` is what stands between the slashes of a path, if anything does. An absolute path is `Within` a directory
if its components begin with those of the directory, and `Beneath` it if it has more.

A path is empty, or begins with a slash, or is a name, or a name and a slash before a shorter path (`path_cases`); its
components follow that shape (`components_slash`, `IsName.components_eq`, `IsName.components_cons`).
-/

namespace Cosmost.Lib

/-- The components of a path. -/
def components (p : List Char) : List (List Char) := (p.splitOn '/').filter (· ≠ [])

/-- What can be a component. -/
structure IsName (n : List Char) : Prop where
  ne_nil : n ≠ []
  no_slash : '/' ∉ n

/-- The path is absolute, and the directory or something beneath it. -/
def Within (dir : List (List Char)) (p : List Char) : Prop := p.head? = some '/' ∧ dir <+: components p

instance (dir : List (List Char)) (p : List Char) : Decidable (Within dir p) := inferInstanceAs (Decidable (_ ∧ _))

/-- The path is strictly inside the directory. -/
def Beneath (dir : List (List Char)) (p : List Char) : Prop := Within dir p ∧ components p ≠ dir

instance (dir : List (List Char)) (p : List Char) : Decidable (Beneath dir p) := inferInstanceAs (Decidable (_ ∧ _))

@[simp] theorem components_nil : components [] = [] := rfl

/-- A slash in front adds no component. -/
@[simp] theorem components_slash (p : List Char) : components ('/' :: p) = components p := by
  have h : ('/' :: p).splitOnP (· == '/') = [] :: p.splitOnP (· == '/') :=
    List.splitOnP_append_cons_of_forall_mem (fun _ h => absurd h List.not_mem_nil) '/' (by simp) p
  rw [components, List.splitOn_eq_splitOnP, h, components, List.splitOn_eq_splitOnP]
  simp

section Name

variable {n d : List Char} (hn : IsName n)
include hn

theorem IsName.not_slash : ∀ c ∈ n, (c == '/') = false := by
  intro c hc
  rw [beq_eq_false_iff_ne]
  rintro rfl
  exact hn.no_slash hc

/-- No name begins with a slash. -/
theorem IsName.append_ne (s p : List Char) : n ++ s ≠ '/' :: p := by
  intro h
  cases n with
  | nil => exact hn.ne_nil rfl
  | cons c n =>
    rw [List.cons_append] at h
    exact hn.no_slash ((List.cons.inj h).1 ▸ List.mem_cons_self)

theorem IsName.components_eq : components n = [n] := by
  rw [components, List.splitOn_eq_splitOnP, List.splitOnP_eq_singleton hn.not_slash]
  simp [hn.ne_nil]

theorem IsName.components_cons (p : List Char) : components (n ++ '/' :: p) = n :: components p := by
  have h := List.splitOnP_append_cons_of_forall_mem hn.not_slash '/' (by simp) p
  rw [components, List.splitOn_eq_splitOnP, h, components, List.splitOn_eq_splitOnP]
  simp [hn.ne_nil]

/-- What begins with a name and a slash begins a path with that first name. -/
theorem IsName.prefix_iff (hd : IsName d) (s p : List Char) :
    d ++ '/' :: s <+: n ++ '/' :: p ↔ d = n ∧ s <+: p := by
  constructor
  · rintro ⟨t, ht⟩
    obtain ⟨rfl, rfl⟩ := eq_of_append_cons hd.no_slash hn.no_slash (by simpa using ht)
    exact ⟨rfl, List.prefix_append s t⟩
  · rintro ⟨rfl, t, rfl⟩
    exact ⟨t, by simp⟩

end Name

/-- The shapes of a path. -/
theorem path_cases (p : List Char) :
    p = [] ∨ (∃ q, p = '/' :: q) ∨ IsName p ∨ ∃ n q, IsName n ∧ p = n ++ '/' :: q := by
  have hsplit := List.takeWhile_append_dropWhile (p := (· != '/')) (l := p)
  have hno : '/' ∉ p.takeWhile (· != '/') := fun h => by simpa using List.mem_takeWhile_imp h
  cases hd : p.dropWhile (· != '/') with
  | nil =>
    rw [hd, List.append_nil] at hsplit
    rw [hsplit] at hno
    by_cases hp : p = []
    · exact Or.inl hp
    · exact Or.inr (Or.inr (Or.inl ⟨hp, hno⟩))
  | cons c q =>
    have hc : c = '/' := by
      have hne : p.dropWhile (· != '/') ≠ [] := by rw [hd]; simp
      have hhead := List.head_dropWhile_not (· != '/') hne
      simpa [hd] using hhead
    rw [hd, hc] at hsplit
    by_cases ht : p.takeWhile (· != '/') = []
    · rw [ht, List.nil_append] at hsplit
      exact Or.inr (Or.inl ⟨q, hsplit.symm⟩)
    · exact Or.inr (Or.inr (Or.inr ⟨_, q, ⟨ht, hno⟩, hsplit.symm⟩))

/-! ## The first component -/

section First

variable {d e p : List Char} (hd : IsName d)
include hd

/-- A path that begins with a name has it as its first component, or a longer one. -/
theorem IsName.head_of_begins (h : d <+: p) :
    (components p).head? = some d ∨ ∃ c q, c ≠ '/' ∧ p = d ++ c :: q := by
  obtain ⟨s, rfl⟩ := h
  cases s with
  | nil => exact Or.inl (by rw [List.append_nil, hd.components_eq]; rfl)
  | cons c q =>
    by_cases hc : c = '/'
    · exact Or.inl (by rw [hc, hd.components_cons]; rfl)
    · exact Or.inr ⟨c, q, hc, rfl⟩

omit hd in
/-- A path begins with its first component, or with a slash. -/
theorem prefix_of_head (h : (components p).head? = some d) :
    d <+: p ∨ ∃ q, p = '/' :: q ∧ (components q).head? = some d := by
  rcases path_cases p with rfl | ⟨q, rfl⟩ | hp | ⟨n, q, hn, rfl⟩
  · simp at h
  · exact Or.inr ⟨q, rfl, by rwa [components_slash] at h⟩
  · rw [hp.components_eq, List.head?_cons, Option.some.injEq] at h
    exact Or.inl (h ▸ List.prefix_rfl)
  · rw [hn.components_cons, List.head?_cons, Option.some.injEq] at h
    exact Or.inl (h ▸ List.prefix_append _ _)

theorem IsName.append (he : '/' ∉ e) : IsName (d ++ e) :=
  ⟨by simp [hd.ne_nil], by simp only [List.mem_append, not_or]; exact ⟨hd.no_slash, he⟩⟩

/-- What goes on a name, up to the next slash, is part of the first component. -/
theorem IsName.head_append (h : (components (d ++ p)).head? = some e) : d <+: e := by
  rcases path_cases p with rfl | ⟨q, rfl⟩ | hp | ⟨n, q, hn, rfl⟩
  · rw [List.append_nil, hd.components_eq, List.head?_cons, Option.some.injEq] at h
    exact h ▸ List.prefix_rfl
  · rw [hd.components_cons, List.head?_cons, Option.some.injEq] at h
    exact h ▸ List.prefix_rfl
  · rw [(hd.append hp.no_slash).components_eq, List.head?_cons, Option.some.injEq] at h
    exact h ▸ List.prefix_append _ _
  · rw [← List.append_assoc, (hd.append hn.no_slash).components_cons, List.head?_cons, Option.some.injEq] at h
    exact h ▸ List.prefix_append _ _

/-- A path that begins with a name has components. -/
theorem IsName.components_ne_nil (h : d <+: p) : components p ≠ [] := by
  obtain ⟨s, rfl⟩ := h
  rcases path_cases s with rfl | ⟨q, rfl⟩ | hs | ⟨n, q, hn, rfl⟩
  · rw [List.append_nil, hd.components_eq]; simp
  · rw [hd.components_cons]; simp
  · rw [(hd.append hs.no_slash).components_eq]; simp
  · rw [← List.append_assoc, (hd.append hn.no_slash).components_cons]; simp

end First

/-- A directory named by one component, and a path that begins with a name and a slash. -/
theorem beneath_cons_iff {d n p : List Char} (hn : IsName n) :
    Beneath [d] ('/' :: (n ++ '/' :: p)) ↔ d = n ∧ components p ≠ [] := by
  rw [Beneath, Within, components_slash, hn.components_cons]
  simp only [List.head?_cons, true_and, List.cons_prefix_cons, List.nil_prefix, and_true, ne_eq, List.cons.injEq,
    not_and]
  exact ⟨fun ⟨h1, h2⟩ => ⟨h1, h2 h1.symm⟩, fun ⟨h1, h2⟩ => ⟨h1, fun _ => h2⟩⟩

/-- A directory named by two components. -/
theorem within_cons_iff {d e n p : List Char} (hn : IsName n) :
    Within [d, e] ('/' :: (n ++ '/' :: p)) ↔ d = n ∧ (components p).head? = some e := by
  rw [Within, components_slash, hn.components_cons]
  simp only [List.head?_cons, true_and, List.cons_prefix_cons]
  cases components p with
  | nil => simp
  | cons c cs => simp [eq_comm]

end Cosmost.Lib
