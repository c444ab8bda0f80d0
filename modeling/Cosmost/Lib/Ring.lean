import Mathlib.Data.List.Chain
import Mathlib.Data.List.Nodup
import Mathlib.Logic.Function.Basic

/-!
# Circular doubly linked lists

A list head and its nodes are links at addresses. `IsRing h a xs` says that the links `next` lead from the head `a` through
`xs` back to `a`, and the links `prev` the other way round. `walk` is the loop over a list, of at most as many turns as it
is given: over a ring it visits the nodes, each once and in order (`IsRing.walk`), and whatever the links are, it visits a
node only behind a link to it (`forall_of_walk`).
-/

namespace Cosmost.Lib

/-- The two links of a list head or a node. -/
structure Links (α : Type*) where
  prev : α
  next : α

section Ring

variable {α : Type*} [DecidableEq α]

/-- A store to the link `prev` at an address. -/
def setPrev (h : α → Links α) (a b : α) : α → Links α := Function.update h a { h a with prev := b }

/-- A store to the link `next`. -/
def setNext (h : α → Links α) (a b : α) : α → Links α := Function.update h a { h a with next := b }

variable (h : α → Links α) (a b x : α)

@[simp] theorem setPrev_next : (setPrev h a b x).next = (h x).next := by
  by_cases hx : x = a
  · subst hx
    simp [setPrev]
  · simp [setPrev, hx]

@[simp] theorem setNext_prev : (setNext h a b x).prev = (h x).prev := by
  by_cases hx : x = a
  · subst hx
    simp [setNext]
  · simp [setNext, hx]

@[simp] theorem setPrev_prev : (setPrev h a b x).prev = if x = a then b else (h x).prev := by
  by_cases hx : x = a
  · subst hx
    simp [setPrev]
  · simp [setPrev, hx]

@[simp] theorem setNext_next : (setNext h a b x).next = if x = a then b else (h x).next := by
  by_cases hx : x = a
  · subst hx
    simp [setNext]
  · simp [setNext, hx]

/-- `for (pos = ...; pos != head; pos = pos->next)`: the nodes visited, in at most `n` turns and the test behind them. -/
def walk (h : α → Links α) (head : α) : Nat → α → Option (List α)
  | 0, _ => none
  | n + 1, pos => if pos = head then some [] else (walk h head n (h pos).next).map (pos :: ·)

/-- The links run around the head and the nodes. -/
structure IsRing (h : α → Links α) (head : α) (xs : List α) : Prop where
  nodup : (head :: xs).Nodup
  next : List.IsChain (fun y x => (h y).next = x) (head :: xs)
  prev : List.IsChain (fun y x => (h x).prev = y) (head :: xs)
  last : ∀ y ∈ (head :: xs).getLast?, (h y).next = head
  first : ∀ y ∈ (head :: xs).getLast?, (h head).prev = y

variable {h} {head : α}

/-- The loop follows the links to the head. -/
theorem walk_of_chain {xs : List α} : ∀ {y : α}, List.IsChain (fun y x => (h y).next = x) (y :: xs) →
    (∀ z ∈ (y :: xs).getLast?, (h z).next = head) → head ∉ xs → walk h head (xs.length + 1) (h y).next = some xs := by
  induction xs with
  | nil =>
    intro y _ hlast _
    rw [hlast y rfl]
    exact if_pos rfl
  | cons x xs ih =>
    intro y hchain hlast hhead
    obtain ⟨hy, hrest⟩ := List.isChain_cons_cons.mp hchain
    have hx : x ≠ head := fun hx => hhead (hx ▸ List.mem_cons_self)
    have hlast' : ∀ z ∈ (x :: xs).getLast?, (h z).next = head := fun z hz =>
      hlast z (by rwa [List.getLast?_cons_cons])
    rw [hy, List.length_cons, walk, if_neg hx, ih hrest hlast' fun hmem => hhead (List.mem_cons_of_mem _ hmem)]
    rfl

/-- **The loop visits the nodes of a ring.** -/
theorem IsRing.walk {xs : List α} (hr : IsRing h head xs) : Lib.walk h head (xs.length + 1) (h head).next = some xs :=
  walk_of_chain hr.next hr.last (List.nodup_cons.mp hr.nodup).1

/-- **The loop visits a node only behind a link to it**: what holds at the first node, and holds behind a link from where it
holds, holds of every node visited. -/
theorem forall_of_walk {P : α → Prop} (hnext : ∀ y, y ≠ head → P y → (h y).next = head ∨ P (h y).next) {n : Nat} :
    ∀ {pos : α} {xs : List α}, (pos = head ∨ P pos) → Lib.walk h head n pos = some xs → ∀ x ∈ xs, P x := by
  induction n with
  | zero => intro pos xs _ hw; cases hw
  | succ n ih =>
    intro pos xs hpos hw
    rw [Lib.walk] at hw
    split_ifs at hw with heq
    · cases hw
      exact fun x hx => absurd hx List.not_mem_nil
    · obtain ⟨ys, hys, rfl⟩ := Option.map_eq_some_iff.mp hw
      have hP := hpos.resolve_left heq
      exact List.forall_mem_cons.mpr ⟨hP, ih (hnext pos heq hP) hys⟩

end Ring

/-! ## Chains by a function to the node before -/

section Pred

variable {α : Type*} {f : α → α}

/-- What is before a node is no last node. -/
theorem pred_mem {xs : List α} : ∀ {a : α}, List.IsChain (fun y x => f x = y) (a :: xs) →
    ∀ x ∈ xs, f x ∈ (a :: xs).dropLast := by
  induction xs with
  | nil => exact fun _ x hx => absurd hx List.not_mem_nil
  | cons b xs ih =>
    intro a h x hx
    obtain ⟨hb, hrest⟩ := List.isChain_cons_cons.mp h
    rw [List.dropLast_cons_cons]
    rcases List.mem_cons.mp hx with rfl | hx
    · rw [hb]
      exact List.mem_cons_self
    · exact List.mem_cons_of_mem _ (ih hrest x hx)

/-- Two nodes are not behind one and the same. -/
theorem pred_inj {xs : List α} : ∀ {a : α}, List.IsChain (fun y x => f x = y) (a :: xs) → (a :: xs).Nodup →
    ∀ x ∈ xs, ∀ y ∈ xs, f x = f y → x = y := by
  induction xs with
  | nil => exact fun _ _ x hx => absurd hx List.not_mem_nil
  | cons b xs ih =>
    intro a h hnodup x hx y hy hxy
    obtain ⟨hb, hrest⟩ := List.isChain_cons_cons.mp h
    obtain ⟨ha, hnodup'⟩ := List.nodup_cons.mp hnodup
    -- the node behind `a` is `b` alone
    have hne : ∀ z ∈ xs, f z ≠ a := fun z hz hza => ha (hza ▸ List.dropLast_subset _ (pred_mem hrest z hz))
    rcases List.mem_cons.mp hx with rfl | hx' <;> rcases List.mem_cons.mp hy with rfl | hy'
    · rfl
    · exact absurd (hxy.symm.trans hb) (hne y hy')
    · exact absurd (hxy.trans hb) (hne x hx')
    · exact ih hrest hnodup' x hx' y hy' hxy

/-- Behind every node but the last there is one. -/
theorem exists_behind {xs : List α} : ∀ {a : α}, List.IsChain (fun y x => f x = y) (a :: xs) →
    ∀ y ∈ a :: xs, y ∉ (a :: xs).getLast? → ∃ x ∈ xs, f x = y := by
  induction xs with
  | nil =>
    intro a _ y hy hlast
    obtain rfl := List.mem_singleton.mp hy
    exact absurd rfl hlast
  | cons b xs ih =>
    intro a h y hy hlast
    obtain ⟨hb, hrest⟩ := List.isChain_cons_cons.mp h
    rcases List.mem_cons.mp hy with rfl | hy
    · exact ⟨b, List.mem_cons_self, hb⟩
    · rw [List.getLast?_cons_cons] at hlast
      obtain ⟨x, hx, hxy⟩ := ih hrest y hy hlast
      exact ⟨x, List.mem_cons_of_mem _ hx, hxy⟩

/-- Nothing is behind the last node. -/
theorem pred_ne_last {xs : List α} {a : α} (h : List.IsChain (fun y x => f x = y) (a :: xs)) (hnodup : (a :: xs).Nodup)
    {x y : α} (hx : x ∈ xs) (hy : y ∈ (a :: xs).getLast?) : f x ≠ y := by
  intro hxy
  obtain ⟨l, hl⟩ := List.getLast?_eq_some_iff.mp hy
  have hmem := pred_mem h x hx
  rw [hl, List.dropLast_concat, hxy] at hmem
  rw [hl] at hnodup
  exact (List.nodup_append.mp hnodup).2.2 y hmem y List.mem_cons_self rfl

end Pred

end Cosmost.Lib
