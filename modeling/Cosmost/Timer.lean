import Cosmost.Lib.Run
import Cosmost.Signal
import Mathlib.Data.List.Infix
import Mathlib.Logic.Function.Basic

/-!
# The flush timer (`timer.c`)

`start_flusher_timer` claims `timeout_signal` before its three fallible calls, and nothing ever gives the claim back:
neither a start that fails, nor `stop_flusher_timer`, nor the child of a fork, which has no timers.

`truthful_iff`: `timeout_signal` is non-zero exactly while there is an armed timer with its handler, after every event of
a run, if and only if each event is `Sound`: a start that claims the signal gets the timer, `stop_flusher_timer` gets no
further than its first call, and no process that has claimed the signal forks and logs again. `restart_without_timer` are
a restart, a fork, and a start that fails.
-/

namespace Cosmost.Timer

open Cosmost.Lib Cosmost.Signal

/-! ## The process and the system -/

/-- `SIGRTMAX`. -/
def sigrtmax : Nat := 64

/-- The functions that handle signals: that of the timer, and those of the application. -/
inductive Handler (H : Type*)
  | timeoutSignalHandler
  | application (h : H)
  deriving DecidableEq, Repr

/-- A timer of the process: the signal that it sends, and whether it is armed. -/
structure PosixTimer where
  signo : Nat
  armed : Bool
  deriving DecidableEq, Repr

variable {H : Type*}

/-- The variables of `timer.c` and what the system keeps for the process. -/
structure State (H : Type*) where
  timeoutSignal : Nat
  /-- The timer that `timeout_timer` names, if the process has it. -/
  timer : Option PosixTimer
  /-- The handlers of the signals. -/
  handler : Nat → SaHandler (Handler H)

/-- The program starts. -/
def State.init (handler : Nat → SaHandler (Handler H)) : State H := ⟨0, none, handler⟩

/-- `sigaction` gives a signal a handler. -/
def State.sigaction (s : State H) (signum : Nat) (p : SaHandler (Handler H)) : State H :=
  { s with handler := Function.update s.handler signum p }

/-- What a call finds, and which of the system calls succeed in it. -/
structure Answers where
  processName : List Char
  ppid : Nat
  /-- `sigaction(signum, NULL, &old)`. -/
  query : Nat → Bool
  /-- `sigaction` with a new handler. -/
  sigaction : Bool
  timerCreate : Bool
  /-- `timer_settime`, if there is a timer. -/
  timerSettime : Bool
  timerDelete : Bool

/-- The processes that have no timer: those of the system, and those of the kernel thread `2`. -/
def Answers.Exempt (v : Answers) : Prop :=
  "/system/xbin/".toList <+: v.processName ∨ "/system/bin/".toList <+: v.processName ∨ v.ppid = 2

instance (v : Answers) : Decidable v.Exempt := inferInstanceAs (Decidable (_ ∨ _ ∨ _))

/-! ## The code -/

/-- `stop_flusher_timer` after its `sigaction`. -/
def deleteTimer (v : Answers) (s : State H) : State H :=
  match s.timer with
  -- `timer_settime` fails
  | none => s
  | some t =>
    if !v.timerSettime then s
    else if !v.timerDelete then { s with timer := some { t with armed := false } }
    else { s with timer := none }

/-- `stop_flusher_timer`. -/
def stopFlusherTimer (v : Answers) (s : State H) : State H :=
  if v.Exempt then s
  else if s.timeoutSignal = 0 then s
  else if !v.sigaction then s
  else deleteTimer v (s.sigaction s.timeoutSignal .sigIgn)

/-- The loop of `get_free_signal` when `n` signals are left. -/
def getFreeSignalLoop (v : Answers) (s : State H) : Nat → Option Nat
  | 0 => none
  | n + 1 =>
    let signum := sigrtmax - (n + 1)
    if !v.query signum then getFreeSignalLoop v s n
    else if (s.handler signum).nonnull then getFreeSignalLoop v s n
    else some signum

/-- `get_free_signal`; `none` is `-1`. It begins at `TIMEOUT_SIGNAL`, which is `SIGRTMAX - 10`. -/
def getFreeSignal (v : Answers) (s : State H) : Option Nat := getFreeSignalLoop v s 10

/-- `start_flusher_timer` from its compare-and-swap on. -/
def createTimer (v : Answers) (s : State H) : Int × State H :=
  if !v.sigaction then (-1, s)
  else
    let s := s.sigaction s.timeoutSignal (.function .timeoutSignalHandler)
    if !v.timerCreate then (-1, s)
    else if !v.timerSettime then (-1, { s with timer := some ⟨s.timeoutSignal, false⟩ })
    else (0, { s with timer := some ⟨s.timeoutSignal, true⟩ })

/-- `start_flusher_timer`: what it returns, and the state. -/
def startFlusherTimer (v : Answers) (s : State H) : Int × State H :=
  if v.Exempt then (0, s)
  else if s.timeoutSignal ≠ 0 then (0, s)
  else
    match getFreeSignal v s with
    | none => (-1, s)
    | some signum => createTimer v { s with timeoutSignal := signum }

/-! ## Runs -/

/-- What happens to the process. -/
inductive Event
  | start (v : Answers)
  | stop (v : Answers)
  /-- The process forks, and `reinit_procid` in the child calls `stop_flusher_timer` and `start_flusher_timer`. -/
  | reinit (v w : Answers)

/-- A fork: the child has no timers. -/
def State.fork (s : State H) : State H := { s with timer := none }

/-- The state after an event. -/
def State.step (s : State H) : Event → State H
  | .start v => (startFlusherTimer v s).2
  | .stop v => stopFlusherTimer v s
  | .reinit v w => (startFlusherTimer w (stopFlusherTimer v s.fork)).2

/-- The process has a timer that is armed, and the handler of its signal is installed. -/
def State.Ticks (s : State H) : Prop :=
  ∃ t ∈ s.timer, t.armed = true ∧ s.handler t.signo = .function .timeoutSignalHandler

/-- `timeout_signal` tells the truth. -/
def State.Truthful (s : State H) : Prop := s.timeoutSignal ≠ 0 ↔ s.Ticks

/-- A start for which there is a free signal, and the system calls succeed. -/
def Answers.Create (v : Answers) (s : State H) : Prop :=
  ¬ v.Exempt ∧ getFreeSignal v s ≠ none ∧ v.sigaction = true ∧ v.timerCreate = true ∧ v.timerSettime = true

/-- The event starts the timer, and the system lets it. -/
def State.Served (s : State H) : Event → Prop
  | .start v => v.Create s
  | .stop _ => False
  | .reinit v w => w.Create (stopFlusherTimer v s.fork)

/-- A start gets no further than `get_free_signal`, or creates the timer. -/
def Answers.StartSound (v : Answers) (s : State H) : Prop :=
  v.Exempt ∨ s.timeoutSignal ≠ 0 ∨ getFreeSignal v s = none ∨ v.Create s

/-- The event keeps `timeout_signal` right. -/
def State.Sound (s : State H) : Event → Prop
  | .start v => v.StartSound s
  | .stop v => v.Exempt ∨ s.timeoutSignal = 0 ∨ v.sigaction = false
  | .reinit _ w => s.timeoutSignal = 0 ∧ w.StartSound s

section Decidable

variable [DecidableEq H]

instance (s : State H) : Decidable s.Ticks := inferInstanceAs (Decidable (∃ t ∈ _, _))

instance (s : State H) : Decidable s.Truthful := inferInstanceAs (Decidable (_ ↔ _))

end Decidable

instance (v : Answers) (s : State H) : Decidable (v.Create s) := inferInstanceAs (Decidable (_ ∧ _))

instance (s : State H) : ∀ e, Decidable (s.Served e)
  | .start v => inferInstanceAs (Decidable (v.Create s))
  | .stop _ => isFalse not_false
  | .reinit v w => inferInstanceAs (Decidable (w.Create (stopFlusherTimer v s.fork)))

/-! ## One call -/

section Step

variable {s : State H} {v : Answers} {n k : Nat}

/-- A free signal is one of the ten. -/
theorem getFreeSignalLoop_pos (h : getFreeSignalLoop v s n = some k) (hn : n < sigrtmax) : k ≠ 0 := by
  induction n with
  | zero => simp [getFreeSignalLoop] at h
  | succ n ih =>
    simp only [getFreeSignalLoop] at h
    split_ifs at h with hq hp
    · exact ih h (by omega)
    · exact ih h (by omega)
    · have hk := Option.some.inj h
      omega

theorem getFreeSignal_pos (h : getFreeSignal v s = some k) : k ≠ 0 := getFreeSignalLoop_pos h (by decide)

/-- The timer has claimed its signal, and ticks. -/
structure State.Running (s : State H) : Prop where
  claimed : s.timeoutSignal ≠ 0
  timer : s.timer = some ⟨s.timeoutSignal, true⟩
  handler : s.handler s.timeoutSignal = .function .timeoutSignalHandler

theorem State.Running.ticks (h : s.Running) : s.Ticks := ⟨_, h.timer, rfl, h.handler⟩

theorem createTimer_timeoutSignal : (createTimer v s).2.timeoutSignal = s.timeoutSignal := by
  unfold createTimer
  split_ifs <;> rfl

/-- **The three calls create the timer if they succeed**, and no timer ticks otherwise. -/
theorem createTimer_running (hs : s.timeoutSignal ≠ 0)
    (h : v.sigaction = true ∧ v.timerCreate = true ∧ v.timerSettime = true) : (createTimer v s).2.Running := by
  obtain ⟨hsig, hcreate, hset⟩ := h
  simp only [createTimer, hsig, hcreate, hset, Bool.not_true, Bool.false_eq_true, ↓reduceIte]
  exact ⟨hs, rfl, Function.update_self _ _ s.handler⟩

theorem createTimer_failed (hnone : s.timer = none)
    (h : ¬ (v.sigaction = true ∧ v.timerCreate = true ∧ v.timerSettime = true)) : ¬ (createTimer v s).2.Ticks := by
  rintro ⟨t, ht, harmed, -⟩
  unfold createTimer at ht
  split_ifs at ht with hsig hcreate hset
  · rw [hnone] at ht
    cases ht
  · rw [State.sigaction, hnone] at ht
    cases ht
  · cases ht
    cases harmed
  · exact h ⟨by simpa using hsig, by simpa using hcreate, by simpa using hset⟩

/-- A start that gets no further than `get_free_signal`. -/
theorem start_kept (h : v.Exempt ∨ s.timeoutSignal ≠ 0 ∨ getFreeSignal v s = none) : (startFlusherTimer v s).2 = s := by
  by_cases hv : v.Exempt
  · rw [startFlusherTimer, if_pos hv]
  · by_cases hs : s.timeoutSignal ≠ 0
    · rw [startFlusherTimer, if_neg hv, if_pos hs]
    · rw [startFlusherTimer, if_neg hv, if_neg hs, (h.resolve_left hv).resolve_left hs]

/-- A start that claims a signal. -/
theorem start_claimed (hv : ¬ v.Exempt) (hs : s.timeoutSignal = 0) (hk : getFreeSignal v s = some k) :
    startFlusherTimer v s = createTimer v { s with timeoutSignal := k } := by
  simp only [startFlusherTimer, hv, hs, hk, ↓reduceIte, ne_eq, not_true_eq_false]

/-- A stop that gets no further than its first call. -/
theorem stop_kept (h : v.Exempt ∨ s.timeoutSignal = 0 ∨ v.sigaction = false) : stopFlusherTimer v s = s := by
  by_cases hv : v.Exempt
  · rw [stopFlusherTimer, if_pos hv]
  · by_cases hs : s.timeoutSignal = 0
    · rw [stopFlusherTimer, if_neg hv, if_pos hs]
    · rw [stopFlusherTimer, if_neg hv, if_neg hs, (h.resolve_left hv).resolve_left hs]
      rfl

/-- What is left of the timer, if anything, has its signal. -/
theorem deleteTimer_left : (deleteTimer v s).timeoutSignal = s.timeoutSignal ∧ (deleteTimer v s).handler = s.handler ∧
    ∀ t ∈ (deleteTimer v s).timer, ∃ t' ∈ s.timer, t'.signo = t.signo := by
  unfold deleteTimer
  cases htimer : s.timer with
  | none =>
    refine ⟨rfl, rfl, fun t ht => ?_⟩
    rw [htimer] at ht
    cases ht
  | some t₀ =>
    dsimp only
    split_ifs
    · refine ⟨rfl, rfl, fun t ht => ⟨t, ?_, rfl⟩⟩
      rwa [htimer] at ht
    · refine ⟨rfl, rfl, fun t ht => ⟨t₀, rfl, ?_⟩⟩
      cases ht
      rfl
    · exact ⟨rfl, rfl, fun t ht => by cases ht⟩

/-- **A stop does not give the signal back.** -/
theorem stop_timeoutSignal : (stopFlusherTimer v s).timeoutSignal = s.timeoutSignal := by
  unfold stopFlusherTimer
  split_ifs
  · rfl
  · rfl
  · rfl
  · exact deleteTimer_left.1

theorem stop_none (h : s.timer = none) : (stopFlusherTimer v s).timer = none := by
  unfold stopFlusherTimer
  split_ifs
  · exact h
  · exact h
  · exact h
  · simp only [deleteTimer, State.sigaction, h]

/-- A stop that goes on takes the handler away. -/
theorem stop_silent (h : s.Running) (hv : ¬ v.Exempt) (hsig : v.sigaction = true) : ¬ (stopFlusherTimer v s).Ticks := by
  rintro ⟨t, ht, -, hhandler⟩
  have hstop : stopFlusherTimer v s = deleteTimer v (s.sigaction s.timeoutSignal .sigIgn) := by
    rw [stopFlusherTimer, if_neg hv, if_neg h.claimed, hsig]
    rfl
  rw [hstop] at ht hhandler
  obtain ⟨-, hkeeps, hleft⟩ := deleteTimer_left (v := v) (s := s.sigaction s.timeoutSignal .sigIgn)
  obtain ⟨t', ht', hsigno⟩ := hleft t ht
  obtain rfl : (⟨s.timeoutSignal, true⟩ : PosixTimer) = t' := Option.some.inj (h.timer.symm.trans ht')
  rw [hkeeps, ← hsigno] at hhandler
  simp [State.sigaction] at hhandler

/-! ## The invariant -/

/-- Nothing is claimed and there is no timer, or the timer ticks. -/
def State.Settled (s : State H) : Prop := s.timeoutSignal = 0 ∧ s.timer = none ∨ s.Running

theorem State.not_ticks_of_none (h : s.timer = none) : ¬ s.Ticks := by
  rintro ⟨t, ht, -⟩
  rw [h] at ht
  cases ht

theorem State.Settled.truthful (h : s.Settled) : s.Truthful := by
  rcases h with ⟨hs, hnone⟩ | h
  · exact ⟨fun hne => absurd hs hne, fun ht => absurd ht (not_ticks_of_none hnone)⟩
  · exact ⟨fun _ => h.ticks, fun _ => h.claimed⟩

/-- A claim without a timer. -/
theorem State.not_truthful (hs : s.timeoutSignal ≠ 0) (h : ¬ s.Ticks) : ¬ s.Truthful := fun ht => h (ht.mp hs)

theorem State.Settled.start (h : s.Settled) (hv : v.StartSound s) : (startFlusherTimer v s).2.Settled := by
  by_cases hkept : v.Exempt ∨ s.timeoutSignal ≠ 0 ∨ getFreeSignal v s = none
  · rwa [start_kept hkept]
  · rw [not_or, not_or, not_not] at hkept
    obtain ⟨hex, hs, hfree⟩ := hkept
    obtain ⟨k, hk⟩ := Option.ne_none_iff_exists'.mp hfree
    have hcreate : v.Create s := ((hv.resolve_left hex).resolve_left (not_not.mpr hs)).resolve_left hfree
    rw [start_claimed hex hs hk]
    exact Or.inr (createTimer_running (getFreeSignal_pos hk) hcreate.2.2)

/-- **A start that claims the signal and fails.** -/
theorem State.Settled.start_failed (h : s.Settled) (hv : ¬ v.StartSound s) :
    ¬ (startFlusherTimer v s).2.Truthful := by
  simp only [Answers.StartSound, not_or, not_not] at hv
  obtain ⟨hex, hs, hfree, hfail⟩ := hv
  obtain ⟨k, hk⟩ := Option.ne_none_iff_exists'.mp hfree
  have hnone : s.timer = none := by
    rcases h with ⟨-, hnone⟩ | h
    · exact hnone
    · exact absurd hs h.claimed
  rw [start_claimed hex hs hk]
  refine State.not_truthful ?_ (createTimer_failed hnone fun hall => hfail ⟨hex, hfree, hall⟩)
  rw [createTimer_timeoutSignal]
  exact getFreeSignal_pos hk

/-- A fork of a process without a timer. -/
theorem State.step_reinit_idle (hs : s.timeoutSignal = 0) (hnone : s.timer = none) (v w : Answers) :
    s.step (.reinit v w) = s.step (.start w) := by
  have hfork : s.fork = s := by rw [State.fork, ← hnone]
  simp only [State.step, hfork, stop_kept (Or.inr (Or.inl hs))]

/-- **A fork of a process with a timer.** -/
theorem State.Running.reinit (h : s.Running) (v w : Answers) : ¬ (s.step (.reinit v w)).Truthful := by
  have hclaimed : (stopFlusherTimer v s.fork).timeoutSignal ≠ 0 := by
    rw [stop_timeoutSignal]
    exact h.claimed
  rw [State.step, start_kept (Or.inr (Or.inl hclaimed))]
  exact State.not_truthful hclaimed (not_ticks_of_none (stop_none rfl))

/-- One event keeps the invariant if it is sound. -/
theorem State.Settled.step (h : s.Settled) {e : Event} (he : s.Sound e) : (s.step e).Settled := by
  cases e with
  | start v => exact h.start he
  | stop v =>
    rw [State.step, stop_kept he]
    exact h
  | reinit v w =>
    obtain ⟨hs, hw⟩ := he
    rcases h with ⟨-, hnone⟩ | h
    · rw [State.step_reinit_idle hs hnone]
      exact State.Settled.start (Or.inl ⟨hs, hnone⟩) hw
    · exact absurd hs h.claimed

/-- And is sound if `timeout_signal` tells the truth after it. -/
theorem State.Settled.sound (h : s.Settled) {e : Event} (he : (s.step e).Truthful) : s.Sound e := by
  by_contra hsound
  cases e with
  | start v => exact h.start_failed hsound he
  | stop v =>
    simp only [State.Sound, not_or, Bool.not_eq_false] at hsound
    obtain ⟨hv, hs, hsig⟩ := hsound
    rcases h with ⟨hs', -⟩ | h
    · exact hs hs'
    · exact State.not_truthful (stop_timeoutSignal.trans_ne hs) (stop_silent h hv hsig) he
  | reinit v w =>
    rcases h with ⟨hs, hnone⟩ | h
    · rw [State.step_reinit_idle hs hnone] at he
      exact State.Settled.start_failed (Or.inl ⟨hs, hnone⟩) (fun hw => hsound ⟨hs, hw⟩) he
    · exact h.reinit v w he

/-- A start that is served has claimed its signal. -/
theorem start_served (h : v.Create s) : (startFlusherTimer v s).2.timeoutSignal ≠ 0 := by
  by_cases hs : s.timeoutSignal = 0
  · obtain ⟨k, hk⟩ := Option.ne_none_iff_exists'.mp h.2.1
    rw [start_claimed h.1 hs hk, createTimer_timeoutSignal]
    exact getFreeSignal_pos hk
  · rw [start_kept (Or.inr (Or.inl hs))]
    exact hs

/-- So it ticks, if `timeout_signal` tells the truth. -/
theorem State.ticks_of_served {e : Event} (he : s.Served e) (ht : (s.step e).Truthful) : (s.step e).Ticks := by
  refine ht.mp ?_
  cases e with
  | start v => exact start_served he
  | stop v => exact he.elim
  | reinit v w => exact start_served he

end Step

/-! ## Every run -/

/-- After the event `timeout_signal` tells the truth, and there is a timer if the event was a start that the system
served. -/
def State.Well (s : State H) (e : Event) : Prop := (s.step e).Truthful ∧ (s.Served e → (s.step e).Ticks)

instance [DecidableEq H] (s : State H) (e : Event) : Decidable (s.Well e) := inferInstanceAs (Decidable (_ ∧ _))

/-- **When `timeout_signal` tells the truth.** For every sequence of starts, stops and forks, every answer of the system
to each call, and any handlers at the beginning: `timeout_signal` is non-zero exactly while there is an armed timer with
its handler, and each start that the system serves ends with one, if and only if every event is sound. -/
theorem truthful_iff (handler : Nat → SaHandler (Handler H)) (es : List Event) :
    EachStep State.step State.Sound (State.init handler) es ↔ EachStep State.step State.Well (State.init handler) es := by
  refine eachStep_iff_within (I := State.Settled) (V := fun _ _ => True) (fun s e h _ => ?_)
    (fun s e h _ he => h.step he) (Or.inl ⟨rfl, rfl⟩) (eachStep_of_forall fun _ _ => trivial)
  constructor
  · intro he
    have ht := (h.step he).truthful
    exact ⟨ht, fun hserved => State.ticks_of_served hserved ht⟩
  · exact fun he => h.sound he.1

/-- A process of an application, in which every call succeeds. -/
def served : Answers := ⟨"com.example".toList, 1, fun _ => true, true, true, true, true⟩

/-- A new process, in which every signal has its default action. -/
def unhandled : State Empty := .init fun _ => .sigDfl

/-- **A restart, a fork, and a start that fails.** -/
theorem restart_without_timer :
    ¬ EachStep State.step State.Well unhandled [.start served, .stop served, .start served] ∧
      ¬ EachStep State.step State.Well unhandled [.start served, .reinit served served] ∧
      ¬ EachStep State.step State.Well unhandled [.start { served with timerCreate := false }, .start served] := by
  decide

end Cosmost.Timer
