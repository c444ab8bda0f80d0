import Cosmost.Batch.Tagged

/-!
# Threads that share descriptors

A process has one table of descriptors, and each of its threads has batches of its own. `close` reports the pending batch
of the thread that calls it, and no other. So if another thread has a batch pending on the descriptor, and `open` hands
its number out again, that thread goes on with its batch in another file (`reopened_merges`).

`one_open`: in every run in which `open` hands out no number on which some thread has a batch pending, the accesses that
each batch lists were made on the same open of the same file, for any number of threads in any order.
-/

namespace Cosmost.Batch

open Cosmost.Lib Cosmost.Fs

/-- A process, with threads `τ`. Opens are numbered as they come; an access is listed under the number of its open. -/
structure Shared (τ : Type*) where
  /-- The open that each descriptor in use is of. -/
  table : Int → Option Nat
  opens : Nat
  threads : τ → Wrapper → Tagged (Option Nat)

/-- A process at its start. -/
def Shared.init {τ : Type*} : Shared τ := ⟨fun _ => none, 0, fun _ _ => .init⟩

/-- The process is at its start. -/
def Shared.Started {τ : Type*} (s : Shared τ) : Prop := s = .init

/-- What a thread does, whole. -/
inductive SharedEvent (τ : Type*)
  /-- `open` hands out a descriptor number. -/
  | openFd (fd : Int)
  | access (t : τ) (e : Entry) (c : Call)
  /-- `close` and `fclose`. -/
  | close (t : τ) (fd : Int)
  /-- The thread exits: `close_common(-1)`. -/
  | exit (t : τ)

section Steps

variable {τ : Type*} [DecidableEq τ]

/-- One set of variables of one thread. -/
def Shared.set (s : Shared τ) (t : τ) (f : Wrapper → Tagged (Option Nat)) : Shared τ :=
  { s with threads := Function.update s.threads t f }

/-- An event, if it can happen: `open` hands out a number that is not in use, and an access that transfers something is
through one that is. `close_common` is called before the descriptor is closed. -/
def Shared.step (s : Shared τ) : SharedEvent τ → Option (Shared τ)
  | .openFd fd =>
    if 0 ≤ fd ∧ s.table fd = none then
      some { s with table := Function.update s.table fd (some s.opens), opens := s.opens + 1 }
    else none
  | .access t e c =>
    match s.table c.fd with
    -- without a descriptor a wrapper does nothing
    | none => if e.counts c ∧ c.fd ≠ -1 then none else some s
    | some o =>
      some (s.set t fun w =>
        if e.wrapper = w then (s.threads t w).keep (some o) (e.run true c (s.threads t w).vars) else s.threads t w)
  | .close t fd =>
    if fd = -1 then some s
    else
      let s := s.set t fun w => (s.threads t w).keep none (w.close fd (s.threads t w).vars)
      some { s with table := Function.update s.table fd none }
  | .exit t => some (s.set t fun w => (s.threads t w).keep none (w.close (-1) (s.threads t w).vars))

/-- `open` hands out no number on which a thread has a batch pending. -/
def Shared.NumberFree (s : Shared τ) : SharedEvent τ → Prop
  | .openFd fd => ∀ t w, (s.threads t w).vars.lastFd ≠ fd
  | .access _ _ _ | .close _ _ | .exit _ => True

end Steps

/-- After the effect the accesses in the list are of one open. -/
def SameOpen (l : List (Option Nat)) (x : Option Nat × Effect) : Prop := ∀ y ∈ listStep l x, ∀ z ∈ listStep l x, y = z

instance (l : List (Option Nat)) (x : Option Nat × Effect) : Decidable (SameOpen l x) :=
  inferInstanceAs (Decidable (∀ y ∈ _, _))

/-- The accesses in each list were made on the same open. -/
def OneOpen (j : Tagged (Option Nat)) : Prop := EachStep listStep SameOpen [] j.trace

instance (j : Tagged (Option Nat)) : Decidable (OneOpen j) := inferInstanceAs (Decidable (EachStep _ _ _ _))

/-! ## One set of variables -/

/-- The pending batch is of one open, which the descriptor is of unless it was closed. -/
structure Tagged.OfOpen (table : Int → Option Nat) (j : Tagged (Option Nat)) : Prop where
  pending : j.vars.lastFd ≠ -1 →
    ∃ o, AllOf (some o) (listed j.trace) ∧ ∀ o', table j.vars.lastFd = some o' → o' = o
  oneOpen : OneOpen j

section Journal

variable {table : Int → Option Nat} {j : Tagged (Option Nat)}

theorem AllOf.sameOpen {o : Nat} {l : List (Option Nat)} {x : Option Nat × Effect} (h : AllOf (some o) (listStep l x)) :
    SameOpen l x := fun y hy z hz => (h y hy).trans (h z hz).symm

theorem admits_sameOpen (o : Nat) : Admits SameOpen (some o) := by
  refine ⟨fun l _ _ => (allOf_singleton _).sameOpen, fun l hl idx _ _ => ?_, fun l hl _ => AllOf.sameOpen (o := o) hl⟩
  cases idx with
  | zero => exact (allOf_singleton _).sameOpen
  | succ idx => exact hl.concat.sameOpen

theorem ofOpen_init : Tagged.OfOpen table .init := ⟨fun h => absurd rfl h, trivial⟩

/-- The batch may be reported as it is. -/
theorem Tagged.OfOpen.reports (h : j.OfOpen table) (a : Option Nat) (hlast : j.vars.lastFd ≠ -1) (n : Notification) :
    SameOpen (listed j.trace) (a, .notify n) := by
  obtain ⟨o, hall, -⟩ := h.pending hlast
  exact AllOf.sameOpen (o := o) hall

/-- Another table that has no other open for the descriptor of the batch. -/
theorem Tagged.OfOpen.retable {table' : Int → Option Nat} (h : j.OfOpen table)
    (htable : j.vars.lastFd ≠ -1 → ∀ o, table' j.vars.lastFd = some o → table j.vars.lastFd = some o) :
    j.OfOpen table' := by
  refine ⟨fun hlast => ?_, h.oneOpen⟩
  obtain ⟨o, hall, ho⟩ := h.pending hlast
  exact ⟨o, hall, fun o' ho' => ho o' (htable hlast o' ho')⟩

/-- A call that does nothing leaves the batch. -/
theorem Tagged.OfOpen.still (h : j.OfOpen table) (a : Option Nat) {p : Vars × List Effect}
    (hlast : p.1.lastFd = j.vars.lastFd) (hnone : p.2 = []) : (j.keep a p).OfOpen table := by
  have htrace := j.keep_trace a hnone
  have hfd : (j.keep a p).vars.lastFd = j.vars.lastFd := hlast
  refine ⟨fun hne => ?_, by rw [OneOpen, htrace]; exact h.oneOpen⟩
  rw [htrace, hfd]
  exact h.pending (hfd ▸ hne)

theorem Tagged.OfOpen.access (h : j.OfOpen table) (e : Entry) {c : Call} {o : Nat} (ho : table c.fd = some o) :
    (j.keep (some o) (e.run true c j.vars)).OfOpen table := by
  rw [Entry.run_eq]
  split_ifs with hcount
  · have hown : j.vars.lastFd = c.fd → c.fd ≠ -1 → AllOf (some o) (listed j.trace) := by
      intro hlast hfd
      obtain ⟨o', hall, ho'⟩ := h.pending (hlast ▸ hfd)
      rw [ho' o (hlast ▸ ho)]
      exact hall
    rcases traced_leaves (admits_sameOpen o) e.op (e.size c) (e.off c) c hown (h.reports (some o)) with
      hl | ⟨hlast, hnone⟩
    · refine ⟨fun _ => ⟨o, ?_, fun o' ho' => ?_⟩, eachStep_append.mpr ⟨h.oneOpen, hl.each⟩⟩
      · rw [Tagged.keep, listed, List.foldl_append]
        exact hl.all
      · have hfd : (j.keep (some o) (traced e.op c (e.size c) (e.off c) j.vars)).vars.lastFd = c.fd := hl.lastFd
        rw [hfd, ho] at ho'
        exact (Option.some.inj ho').symm
    · exact h.still (some o) hlast hnone
  · exact h.still (some o) rfl rfl

theorem Tagged.OfOpen.close (h : j.OfOpen table) (w : Wrapper) (fd : Int) :
    (j.keep none (w.close fd j.vars)).OfOpen table := by
  obtain ⟨heach, hlast | ⟨hlast, hnone, -⟩⟩ := close_leaves (a := none) w fd (h.reports none)
  · exact ⟨fun hne => absurd hlast hne, eachStep_append.mpr ⟨h.oneOpen, heach⟩⟩
  · exact h.still none hlast hnone

end Journal

/-! ## Runs -/

section Runs

variable {τ : Type*} [DecidableEq τ] {s s' : Shared τ}

/-- What holds of every thread. -/
def Shared.OfOpen (s : Shared τ) : Prop := ∀ t w, (s.threads t w).OfOpen s.table

/-- One thread does something to its variables. -/
theorem Shared.OfOpen.set (h : s.OfOpen) {t : τ} {f : Wrapper → Tagged (Option Nat)}
    (hf : ∀ w, (f w).OfOpen s.table) : (s.set t f).OfOpen := by
  intro t' w
  simp only [Shared.set]
  by_cases ht : t' = t
  · rw [ht, Function.update_self]
    exact hf w
  · rw [Function.update_of_ne ht]
    exact h t' w

/-- **Each step keeps the batches of one open each.** -/
theorem Shared.OfOpen.step (h : s.OfOpen) {ev : SharedEvent τ} (hfree : s.NumberFree ev) (hstep : s.step ev = some s') :
    s'.OfOpen := by
  cases ev with
  | openFd fd =>
    simp only [Shared.step] at hstep
    split_ifs at hstep
    cases hstep
    intro t w
    apply (h t w).retable
    intro _ o ho
    simp only at ho
    rwa [Function.update_of_ne (hfree t w)] at ho
  | access t e c =>
    simp only [Shared.step] at hstep
    split at hstep
    · split_ifs at hstep
      cases hstep
      exact h
    · rename_i o ho
      cases hstep
      apply h.set
      intro w
      split_ifs
      · exact (h t w).access e ho
      · exact h t w
  | close t fd =>
    simp only [Shared.step] at hstep
    split_ifs at hstep with hfd
    · cases hstep
      exact h
    · cases hstep
      have hset := h.set (t := t) fun w => (h t w).close w fd
      intro t' w
      apply (hset t' w).retable
      intro _ o ho
      simp only [Function.update_apply] at ho
      split_ifs at ho
      exact ho
  | exit t =>
    cases hstep
    apply h.set
    intro w
    exact (h t w).close w (-1)

/-- **One batch, one open file.** For any number of threads and any order of opens, accesses, closes and exits, as long as
`open` hands out no number on which a thread has a batch pending: the accesses that a batch of a thread lists were made
on the same open. -/
theorem one_open (s : Shared τ) (hs : Reach Shared.step Shared.NumberFree Shared.Started s) (t : τ) (w : Wrapper) :
    OneOpen (s.threads t w) := by
  have h : s.OfOpen := Reach.inv (by rintro _ rfl; exact fun _ _ => ofOpen_init)
    (fun _ _ _ h hfree hstep => h.step hfree hstep) hs
  exact (h t w).oneOpen

end Runs

/-! ## A file that is opened again, and one that another thread opens again -/

/-- A read of 100 bytes at the start of a file in scope. -/
def headRead : Call := ⟨3, 100, 100, 0, false, fileA, true, .mode 0x81a4, .mode 0x81a4⟩

instance (s : Shared (Fin 2)) : ∀ ev, Decidable (s.NumberFree ev)
  | .openFd _ => inferInstanceAs (Decidable (∀ _ _, _))
  | .access _ _ _ | .close _ _ | .exit _ => isTrue trivial

/-- A thread closes a file itself and opens another under the same number. -/
theorem reopened_apart : ∃ s : Shared (Fin 2), Reach Shared.step Shared.NumberFree Shared.Started s ∧ s.opens = 2 ∧
    (s.threads 0 .read).trace.length = 3 ∧ OneOpen (s.threads 0 .read) := by
  have hrun : (runAll Shared.step Shared.NumberFree (Shared.init : Shared (Fin 2))
      [.openFd 3, .access 0 .read headRead, .close 0 3, .openFd 3, .access 0 .read headRead]).any
      (fun s => s.opens = 2 ∧ (s.threads 0 .read).trace.length = 3) = true := by decide +kernel
  obtain ⟨s, hs, hp⟩ := Reach.of_runAll (show Shared.Started Shared.init from rfl) _ _ hrun
  obtain ⟨hopens, hlen⟩ := of_decide_eq_true hp
  exact ⟨s, hs, hopens, hlen, one_open s hs 0 .read⟩

/-- **Another thread closes the file and opens one under the same number**: the first thread goes on with its batch. -/
theorem reopened_merges : ∃ s : Shared (Fin 2), Reach Shared.step (fun _ _ => True) Shared.Started s ∧
    ¬ OneOpen (s.threads 0 .read) := by
  have hrun : (runAll Shared.step (fun _ _ => True) (Shared.init : Shared (Fin 2))
      [.openFd 3, .access 0 .read headRead, .close 1 3, .openFd 3, .access 0 .read headRead]).any
      (fun s => ¬ OneOpen (s.threads 0 .read)) = true := by decide +kernel
  obtain ⟨s, hs, hp⟩ := Reach.of_runAll (show Shared.Started Shared.init from rfl) _ _ hrun
  exact ⟨s, hs, of_decide_eq_true hp⟩

end Cosmost.Batch
