import Cosmost.Bblog.Calls
import Cosmost.Bblog.Single

/-!
# The exit of the process

`bblog_exit(1)` takes the word of the current buffer away before it calls `flush_buffer`, and `flush_buffer` reads that
word for the pid of the buffer: it finds `0`, which is not the pid of the process, and returns (`bblogExit_exit`). So the
records in the current buffer never reach the log, and there is a record in the current buffer as soon as one was
stored at all (`exit_passes_iff`).
-/

namespace Cosmost.Bblog

open Cosmost.Lib

/-- Every record stored in a buffer is in a text of that buffer that went to the log later, at its place; its comma may
be replaced. -/
def AllPassed (tr : List Event) : Prop :=
  ∀ pre a off m post, tr = pre ++ .stored a off m :: post →
    ∃ text, .written a text ∈ post ∧ (text.drop off).take (m.length - 1) = m.dropLast

/-- A record stored last has not been passed on. -/
theorem not_allPassed_of_last {tr pre : List Event} {a off : Nat} {m : List Char}
    (h : tr = pre ++ [.stored a off m]) : ¬ AllPassed tr := by
  intro hp
  obtain ⟨text, hw, -⟩ := hp pre a off m [] h
  exact List.not_mem_nil hw

theorem allPassed_nil : AllPassed [] := by
  intro pre a off m post h
  simp at h

/-- **The exit of the process writes nothing.** -/
theorem bblogExit_exit {A : Allocator} {e : Process} {s : State} {msgs : List (List Char)} (h : Running e s msgs) :
    bblogExit A e 1 s = .ok (s.setWord s.procPibr 0) := by
  have hp0 : s.procPibr ≠ 0 := by have := h.page.1; omega
  exact (bblogExit_clears (h.toReady.sane (by rw [h.procid]; exact e.pos)) hp0).1

/-- After a run of `bblog` a record stored is the last thing that happened. -/
theorem logAll_running {A : Allocator} {e : Process} (he : e.Fits) (hA : Serves A) (n : Nat)
    (bodies : List (Option (List Char))) : ∀ {s : State} {msgs : List (List Char)}, Running e s msgs →
    (∀ m ∈ records s.cntr bodies, FitsEmpty (prefixText e).length m) →
    ∃ s' msgs', logAll A e (n + 2) bodies s = .ok s' ∧ Running e s' msgs' ∧
      (bodies = [] ∧ s'.trace = s.trace ∨ ∃ pre a off m, s'.trace = pre ++ [.stored a off m]) := by
  induction bodies with
  | nil => intro s msgs h _; exact ⟨s, msgs, rfl, h, Or.inl ⟨rfl, rfl⟩⟩
  | cons body bodies ih =>
    intro s msgs h hfits
    obtain ⟨s₁, ret, hs₁, hc, hp⟩ := bblog_placed he hA h (hfits _ List.mem_cons_self) n
    obtain ⟨msgs₁, hr, pre₁, a₁, off₁, m₁, htr⟩ : ∃ msgs₁, Running e s₁ msgs₁ ∧
        ∃ pre a off m, s₁.trace = pre ++ [.stored a off m] := by
      cases hp with
      | behind hr htr => exact ⟨_, hr, _, _, _, _, htr⟩
      | front _ hr htr =>
        exact ⟨_, hr, _, _, _, _, htr.trans (List.append_assoc _ [_] [_]).symm⟩
    obtain ⟨s', msgs', hs', hr', hlast⟩ := ih hr (fun m hm => hfits m (List.mem_cons_of_mem _ (by rwa [hc] at hm)))
    refine ⟨s', msgs', by simp only [logAll, hs₁, bind, Except.bind]; exact hs', hr', Or.inr ?_⟩
    rcases hlast with ⟨-, htr'⟩ | hlast
    · exact ⟨pre₁, a₁, off₁, m₁, htr'.trans htr⟩
    · exact hlast

/-- `bblog_init`, `bblog` for each of the bodies, and the exit of the process. -/
def exitRun (A : Allocator) (e : Process) (n : Nat) (bodies : List (Option (List Char))) (c : Nat)
    (mem : Nat → Pibr) : Except Stuck State := do
  let s ← logAll A e n bodies (bblogInit A e (.init c mem))
  bblogExit A e 1 s

/-- **At the exit of the process the records stored have been passed to the log exactly when none was stored.** For
every run of one thread in which each record fits an empty buffer: the run ends, and every record stored in a buffer
has been passed to the log if and only if there was no call of `bblog`. -/
theorem exit_passes_iff (A : Allocator) (hA : Serves A) (e : Process) (he : e.Fits) (n : Nat)
    (bodies : List (Option (List Char))) (c : Nat) (mem : Nat → Pibr)
    (hfits : ∀ m ∈ records c bodies, FitsEmpty (prefixText e).length m) :
    ∃ s', exitRun A e (n + 2) bodies c mem = .ok s' ∧ (AllPassed s'.trace ↔ bodies = []) := by
  obtain ⟨hr, htr, hc⟩ := bblogInit_running he hA c mem
  obtain ⟨s', msgs', hs', hr', hlast⟩ := logAll_running he hA n bodies hr (by rwa [hc])
  refine ⟨s'.setWord s'.procPibr 0, by simp only [exitRun, hs', bind, Except.bind]; exact bblogExit_exit hr', ?_⟩
  have htrace : (s'.setWord s'.procPibr 0).trace = s'.trace := rfl
  rw [htrace]
  rcases hlast with ⟨rfl, htr'⟩ | ⟨pre, a, off, m, htr'⟩
  · rw [htr', htr]
    exact ⟨fun _ => rfl, fun _ => allPassed_nil⟩
  · constructor
    · exact fun hp => absurd hp (not_allPassed_of_last htr')
    · rintro rfl
      cases hs'
      rw [htr] at htr'
      simp at htr'

/-! ## A record that is lost -/

/-- The first of two pages that is free, and else the page after all. -/
theorem twoPages_serves : Serves twoPages := by
  intro n live h
  match live with
  | [] => rfl
  | [a] =>
    by_cases ha : a = 4096
    · subst ha; rfl
    · have : 4096 ∉ [a] := by simp [Ne.symm ha]
      simp [twoPages, this]
  | _ :: _ :: _ => simp at h

/-- A run without a record. -/
theorem empty_run_passes : ∃ s', exitRun twoPages app 2 [] 0 (fun _ => ⟨0, fun _ => nul⟩) = .ok s' ∧
    (AllPassed s'.trace ↔ ([] : List (Option (List Char))) = []) :=
  exit_passes_iff twoPages twoPages_serves app app_fits 0 [] 0 _ (fun _ hm => absurd hm List.not_mem_nil)

/-- **A process that logs one record and exits loses it.** -/
theorem one_record_lost : ∃ s', exitRun twoPages app 2 [some ['x']] 0 (fun _ => ⟨0, fun _ => nul⟩) = .ok s' ∧
    s'.trace = [.stored 4096 (prefixText app).length (record (recordKey 1) (some ['x']))] ∧
    ¬ AllPassed s'.trace := by
  have htrace : (exitRun twoPages app 2 [some ['x']] 0 (fun _ => ⟨0, fun _ => nul⟩)).map State.trace
      = .ok [.stored 4096 (prefixText app).length (record (recordKey 1) (some ['x']))] := by decide +kernel
  cases hs : exitRun twoPages app 2 [some ['x']] 0 (fun _ => ⟨0, fun _ => nul⟩) with
  | error err => rw [hs] at htrace; cases htrace
  | ok s' =>
    rw [hs] at htrace
    have htr := Except.ok.inj htrace
    exact ⟨s', rfl, htr, not_allPassed_of_last (htr.trans (List.nil_append _).symm)⟩

end Cosmost.Bblog
