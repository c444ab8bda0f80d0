import Cosmost.Batch.Wrappers
import Cosmost.Lib.Run
import Mathlib.Data.Fintype.Basic

/-!
# Journals with tags

A journal whose effects carry tags: where an access was made, or by whom. `listed` is then what the pending access
string lists. A rule `P` for effects, given the list before each, holds along a call of a wrapper if the tag of the call
may begin a list, and add to and report a list of its own (`Admits`); if the pending batch is of the same descriptor,
its list must be of that tag (`traced_leaves`).
-/

namespace Cosmost.Batch

open Cosmost.Lib Cosmost.Fs

variable {α : Type*}

instance : Fintype Wrapper :=
  ⟨{.read, .write, .fread, .fwrite, .pread64, .pwrite64}, by intro w; cases w <;> decide⟩

/-- One set of variables and the trace of its effects, each with a tag. -/
structure Tagged (α : Type*) where
  vars : Vars
  trace : List (α × Effect)

/-- The journal of a new thread. -/
def Tagged.init : Tagged α := ⟨Vars.init, []⟩

/-- Keep the result of a call. -/
def Tagged.keep (j : Tagged α) (a : α) (p : Vars × List Effect) : Tagged α := ⟨p.1, j.trace ++ p.2.map (a, ·)⟩

/-- A call that does nothing keeps the trace. -/
theorem Tagged.keep_trace (j : Tagged α) (a : α) {p : Vars × List Effect} (h : p.2 = []) : (j.keep a p).trace = j.trace := by
  rw [Tagged.keep, h, List.map_nil, List.append_nil]

/-- Every entry is `a`. -/
def AllOf (a : α) (l : List α) : Prop := ∀ x ∈ l, x = a

theorem allOf_singleton (a : α) : AllOf a [a] := fun _ hx => List.mem_singleton.mp hx

theorem AllOf.concat {a : α} {l : List α} (h : AllOf a l) : AllOf a (l ++ [a]) := by
  intro x hx
  rcases List.mem_append.mp hx with hx | hx
  · exact h x hx
  · exact List.mem_singleton.mp hx

/-- The rule lets the tag begin a list, and add to and report one of its own. -/
structure Admits (P : List α → α × Effect → Prop) (a : α) : Prop where
  begins : ∀ l size off, P l (a, .snprintf 0 size off)
  adds : ∀ l, AllOf a l → ∀ idx size off, P l (a, .snprintf idx size off)
  reports : ∀ l, AllOf a l → ∀ n, P l (a, .notify n)

/-- Effects that meet the rule from the list `l`, and leave a list of `a`. -/
structure Leaves (P : List α → α × Effect → Prop) (a : α) (fd : Int) (l : List α) (p : Vars × List Effect) : Prop where
  each : EachStep listStep P l (p.2.map (a, ·))
  all : AllOf a ((p.2.map (a, ·)).foldl listStep l)
  lastFd : p.1.lastFd = fd

section Functions

variable {P : List α → α × Effect → Prop} {a : α} (hP : Admits P a) (op : String) (fd cs ce : Int) (size : Nat) (off : Int)
  {b : Vars} {l : List α}
include hP

/-- A new batch is begun; the old one may be reported. -/
theorem notify_leaves (hrep : b.lastFd ≠ -1 → ∀ n, P l (a, .notify n)) :
    Leaves P a fd l (batchReadWriteNotify op fd cs ce size off b) := by
  unfold batchReadWriteNotify
  simp only
  split_ifs with hlast
  · exact ⟨⟨hrep hlast.1 _, hP.begins _ _ _, trivial⟩, allOf_singleton a, rfl⟩
  · exact ⟨⟨hP.begins _ _ _, trivial⟩, allOf_singleton a, rfl⟩

/-- A batch of the tag goes on. -/
theorem record_leaves (hl : AllOf a l) (hlast : b.lastFd = fd) : Leaves P a fd l (recordIostr op fd cs ce size off b) := by
  unfold recordIostr
  by_cases hfull : iostrBufsize ≤ b.access.length + 64
  · simp only [hfull, ↓reduceIte]
    exact notify_leaves hP op fd cs ce size off fun _ n => hP.reports l hl n
  · simp only [hfull, ↓reduceIte]
    refine ⟨⟨hP.adds l hl _ _ _, trivial⟩, ?_, hlast⟩
    simp only [List.map_singleton, List.foldl_cons, List.foldl_nil]
    cases b.access.length with
    | zero => exact allOf_singleton a
    | succ idx => exact hl.concat

theorem first_leaves (hl : AllOf a l) (hlast : b.lastFd = fd) : Leaves P a fd l (batchReadWriteFirst op fd size off b).2 := by
  have hrec : ∀ v : Vars, v.lastFd = (recordIostr op fd (currStart off) (currEnd size off) size off b).1.lastFd →
      Leaves P a fd l (v, (recordIostr op fd (currStart off) (currEnd size off) size off b).2) := by
    intro v hv
    have h := record_leaves hP op fd (currStart off) (currEnd size off) size off hl hlast
    exact ⟨h.each, h.all, hv.trans h.lastFd⟩
  unfold batchReadWriteFirst
  by_cases ha : invalidArgs fd size off
  · rw [if_pos ha]
    exact ⟨trivial, hl, hlast⟩
  · rw [if_neg ha]
    simp only
    split_ifs
    · exact notify_leaves hP op fd _ _ size off fun _ n => hP.reports l hl n
    all_goals exact hrec _ rfl

theorem second_leaves (hrep : b.lastFd ≠ -1 → ∀ n, P l (a, .notify n)) :
    Leaves P a fd l (batchReadWriteSecond op fd size off b) ∨ batchReadWriteSecond op fd size off b = (b, []) := by
  unfold batchReadWriteSecond
  split_ifs
  · exact Or.inr rfl
  · exact Or.inl (notify_leaves hP op fd _ _ size off hrep)

/-- A new batch is begun, or the pending one left as it is. -/
theorem slowPath_leaves (c : Call) (hrep : b.lastFd ≠ -1 → ∀ n, P l (a, .notify n)) :
    Leaves P a c.fd l (slowPath op c size off b) ∨
      ∃ path, slowPath op c size off b = ({ b with path := path }, []) := by
  unfold slowPath
  cases fdToPath c.fd c.link with
  | none => exact Or.inr ⟨b.path, rfl⟩
  | some path =>
    simp only
    split_ifs
    · rcases second_leaves hP op c.fd size off (b := { b with path := path }) hrep with h | h
      · exact Or.inl h
      · exact Or.inr ⟨path, h⟩
    · exact Or.inr ⟨path, rfl⟩

/-- **A call of a wrapper** begins a new batch, goes on with that of its descriptor, or leaves the pending one. -/
theorem traced_leaves (c : Call) (hown : b.lastFd = c.fd → c.fd ≠ -1 → AllOf a l)
    (hrep : b.lastFd ≠ -1 → ∀ n, P l (a, .notify n)) :
    Leaves P a c.fd l (traced op c size off b) ∨
      (traced op c size off b).1.lastFd = b.lastFd ∧ (traced op c size off b).2 = [] := by
  by_cases hlast : b.lastFd = c.fd
  · by_cases hfd : c.fd = -1
    · -- without a descriptor nothing happens
      have ha : invalidArgs (-1) size off := Or.inl (by omega)
      right
      simp [traced, batchReadWriteFirst, ha, slowPath, fdToPath, hfd]
    · left
      have hfirst := first_leaves hP op c.fd size off (hown hlast hfd) hlast
      unfold traced
      rw [if_pos hlast]
      simp only
      split_ifs
      · exact hfirst
      · rcases slowPath_leaves hP op size off (b := (batchReadWriteFirst op c.fd size off b).2.1) c
          (fun _ n => hP.reports _ hfirst.all n) with h | ⟨path, h⟩
        · refine ⟨?_, ?_, h.lastFd⟩
          · rw [List.map_append, eachStep_append]
            exact ⟨hfirst.each, h.each⟩
          · rw [List.map_append, List.foldl_append]
            exact h.all
        · rw [h, List.append_nil]
          exact ⟨hfirst.each, hfirst.all, hfirst.lastFd⟩
  · unfold traced
    rw [if_neg hlast]
    rcases slowPath_leaves hP op size off c hrep with h | ⟨path, h⟩
    · exact Or.inl h
    · rw [h]
      exact Or.inr ⟨rfl, rfl⟩

end Functions

/-- A close leaves no pending batch of the descriptor, or everything. -/
theorem close_leaves {P : List α → α × Effect → Prop} {a : α} {b : Vars} {l : List α} (w : Wrapper) (fd : Int)
    (hrep : b.lastFd ≠ -1 → ∀ n, P l (a, .notify n)) :
    EachStep listStep P l ((w.close fd b).2.map (a, ·)) ∧
      ((w.close fd b).1.lastFd = -1 ∨
        (w.close fd b).1.lastFd = b.lastFd ∧ (w.close fd b).2 = [] ∧ (fd ≠ -1 → b.lastFd ≠ fd)) := by
  have hclose : ∀ name, EachStep listStep P l ((closeWith name fd b).2.map (a, ·)) ∧
      ((closeWith name fd b).1.lastFd = -1 ∨
        (closeWith name fd b).1.lastFd = b.lastFd ∧ (closeWith name fd b).2 = [] ∧ (fd ≠ -1 → b.lastFd ≠ fd)) := by
    intro name
    unfold closeWith
    by_cases h : (fd = -1 ∧ b.lastFd ≠ -1) ∨ (fd ≠ -1 ∧ fd = b.lastFd)
    · rw [if_pos h]
      exact ⟨⟨hrep (by omega) _, trivial⟩, Or.inl rfl⟩
    · rw [if_neg h]
      exact ⟨trivial, Or.inr ⟨rfl, rfl, by omega⟩⟩
  cases w <;> exact hclose _

end Cosmost.Batch
