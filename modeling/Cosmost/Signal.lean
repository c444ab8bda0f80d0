import Cosmost.Lib.Lockstep

/-!
# Signals (`signal.c`)

`init_signal` saves the handlers of six signals and installs `aggregate_handler` for them, which logs the signal, lets the
thread report what it holds back, and calls the saved handler unless that is null. But `SIG_DFL` is the null pointer, so
a default action is lost, and `SIG_IGN` is the address `1`, which is called.

`effects_eq_iff`: a sequence of deliveries has the same effects as without the tracer exactly when each of the signals
had a handler before.
-/

namespace Cosmost.Signal

open Cosmost.Lib

/-! ## The code -/

def sighup : Nat := 1
def sigint : Nat := 2
def sigquit : Nat := 3
def sigabrt : Nat := 6
def sigterm : Nat := 15
def sigtstp : Nat := 20

/-- The signals that `aggregate_handler` is installed for. -/
def aggregated : List Nat := [sigint, sighup, sigtstp, sigterm, sigquit, sigabrt]

/-- A value of `sa_handler`. -/
inductive SaHandler (F : Type*)
  /-- The null pointer. -/
  | sigDfl
  /-- The address `1`. -/
  | sigIgn
  | function (f : F)
  deriving DecidableEq, Repr

/-- The functions that handle signals: that of the tracer, and those of the application. -/
inductive Fn (H : Type*)
  | aggregateHandler
  | application (h : H)
  deriving DecidableEq, Repr

variable {H : Type*}

/-- The handlers that `init_signal` saves. -/
structure Old (H : Type*) where
  oldSigintHandler : SaHandler H
  oldSigtermHandler : SaHandler H
  oldSigabrtHandler : SaHandler H
  oldSigquitHandler : SaHandler H
  oldSighupHandler : SaHandler H
  oldSigtstpHandler : SaHandler H

/-- They are `NULL` first. -/
def Old.null : Old H := ⟨.sigDfl, .sigDfl, .sigDfl, .sigDfl, .sigDfl, .sigDfl⟩

/-- A pointer is tested by comparing it with null. -/
def SaHandler.nonnull {F : Type*} : SaHandler F → Bool
  | .sigDfl => false
  | .sigIgn | .function _ => true

/-- What `aggregate_handler` does. -/
inductive Act (H : Type*)
  /-- `err("\"Signal\":...")`. -/
  | err (signum : Nat)
  | notifyThreadExit (main : Int)
  /-- A call through a pointer. -/
  | call (p : SaHandler H) (signum : Nat)
  deriving DecidableEq, Repr

/-- `aggregate_handler`. -/
def aggregateHandler (old : Old H) (signum : Nat) : List (Act H) :=
  (if signum = sigabrt ∨ signum = sigint ∨ signum = sighup ∨ signum = sigterm ∨ signum = sigquit ∨ signum = sigtstp then
    [.err signum, .notifyThreadExit (-signum)] else []) ++
  if signum = sigint ∧ old.oldSigintHandler.nonnull then [.call old.oldSigintHandler signum]
  else if signum = sighup ∧ old.oldSighupHandler.nonnull then [.call old.oldSighupHandler signum]
  else if signum = sigtstp ∧ old.oldSigtstpHandler.nonnull then [.call old.oldSigtstpHandler signum]
  else if signum = sigterm ∧ old.oldSigtermHandler.nonnull then [.call old.oldSigtermHandler signum]
  else if signum = sigquit ∧ old.oldSigquitHandler.nonnull then [.call old.oldSigquitHandler signum]
  else if signum = sigabrt ∧ old.oldSigabrtHandler.nonnull then [.call old.oldSigabrtHandler signum]
  else []

/-- The table of dispositions of a process. -/
abbrev Table (F : Type*) := Nat → SaHandler F

/-- Which calls of `sigaction` succeed, that get the disposition of a signal or set it. -/
structure Kernel where
  gets : Nat → Bool
  sets : Nat → Bool

/-- `old_..._handler = old.sa_handler` unless `sigaction` fails. -/
def Kernel.get (k : Kernel) (table : Table H) (signum : Nat) (p : SaHandler H) : SaHandler H :=
  if k.gets signum then table signum else p

/-- `sigaction(signum, &sa, NULL)`. -/
def Kernel.set (k : Kernel) (signum : Nat) (table : Table (Fn H)) : Table (Fn H) :=
  if k.sets signum then Function.update table signum (.function .aggregateHandler) else table

/-- The table as the kernel has it when `aggregate_handler` can be installed. -/
def SaHandler.widen : SaHandler H → SaHandler (Fn H)
  | .sigDfl => .sigDfl
  | .sigIgn => .sigIgn
  | .function h => .function (.application h)

/-- `init_signal`: the saved handlers and the table. -/
def initSignal (k : Kernel) (table : Table H) : Old H × Table (Fn H) :=
  (⟨k.get table sigint Old.null.oldSigintHandler, k.get table sigterm Old.null.oldSigtermHandler,
    k.get table sigabrt Old.null.oldSigabrtHandler, k.get table sigquit Old.null.oldSigquitHandler,
    k.get table sighup Old.null.oldSighupHandler, k.get table sigtstp Old.null.oldSigtstpHandler⟩,
    k.set sigquit (k.set sigtstp (k.set sighup (k.set sigterm (k.set sigabrt (k.set sigint
      fun signum => (table signum).widen))))))

/-! ## Effects -/

/-- What a delivery does to the application. -/
inductive Effect (H : Type*)
  /-- The default action of the signal. -/
  | default (signum : Nat)
  /-- Nothing. -/
  | ignored
  /-- A handler of the application is called. -/
  | called (h : H) (signum : Nat)
  /-- The address `1` is called. -/
  | crashed
  deriving DecidableEq, Repr

/-- The process does not go on. The default action of `SIGTSTP` is to stop it until it is continued. -/
def Effect.ends : Effect H → Bool
  | .default signum => signum != sigtstp
  | .ignored | .called _ _ => false
  | .crashed => true

/-- The effect of a call through a pointer. -/
def callPointer (p : SaHandler H) (signum : Nat) : Effect H :=
  match p with
  | .sigDfl | .sigIgn => .crashed
  | .function h => .called h signum

/-- The effect of what a handler of the tracer does: that of its call, if it makes one. -/
def Act.effect : List (Act H) → Effect H
  | [] => .ignored
  | .call p signum :: _ => callPointer p signum
  | _ :: acts => Act.effect acts

/-- The kernel delivers a signal. -/
def deliver {F : Type*} (run : F → Nat → Effect H) (table : Table F) (signum : Nat) : Effect H :=
  match table signum with
  | .sigDfl => .default signum
  | .sigIgn => .ignored
  | .function f => run f signum

/-- A delivery to the application alone. -/
def deliverBare (table : Table H) : Nat → Effect H := deliver Effect.called table

/-- A delivery to the application with the tracer. -/
def deliverTraced (old : Old H) (table : Table (Fn H)) : Nat → Effect H :=
  deliver (fun
    | .aggregateHandler => fun signum => Act.effect (aggregateHandler old signum)
    | .application h => Effect.called h) table

/-- The effects of a sequence of deliveries, as long as the process goes on. -/
def effects (act : Nat → Effect H) (signums : List Nat) : List (Effect H) := untilEnd act Effect.ends signums

/-- The signal has a handler of the application. -/
def Handled (table : Table H) (signum : Nat) : Prop := ∃ h, table signum = .function h

/-! ## The saved handlers -/

/-- The handler that is saved for a signal. -/
def Old.of (old : Old H) (signum : Nat) : SaHandler H :=
  if signum = sigint then old.oldSigintHandler else if signum = sigterm then old.oldSigtermHandler
  else if signum = sigabrt then old.oldSigabrtHandler else if signum = sigquit then old.oldSigquitHandler
  else if signum = sighup then old.oldSighupHandler else if signum = sigtstp then old.oldSigtstpHandler else .sigDfl

section Saved

variable {k : Kernel} {table : Table H} {old : Old H} {signum : Nat}

/-- The signals are different. -/
theorem mem_aggregated : signum ∈ aggregated ↔ signum = sigint ∨ signum = sighup ∨ signum = sigtstp ∨
    signum = sigterm ∨ signum = sigquit ∨ signum = sigabrt := by
  simp [aggregated]

/-- **`aggregate_handler` calls the handler saved for the signal, unless that is null.** -/
theorem aggregateHandler_eq (h : signum ∈ aggregated) : aggregateHandler old signum =
    [.err signum, .notifyThreadExit (-signum)] ++
      if (old.of signum).nonnull then [.call (old.of signum) signum] else [] := by
  obtain rfl | rfl | rfl | rfl | rfl | rfl := mem_aggregated.mp h <;>
    simp [aggregateHandler, Old.of, sighup, sigint, sigquit, sigabrt, sigterm, sigtstp]

/-- What `init_signal` saves. -/
theorem initSignal_old (hk : ∀ n ∈ aggregated, k.gets n) (h : signum ∈ aggregated) :
    (initSignal k table).1.of signum = table signum := by
  have hget := hk signum h
  obtain rfl | rfl | rfl | rfl | rfl | rfl := mem_aggregated.mp h <;>
    simp [initSignal, Old.of, Kernel.get, hget, sighup, sigint, sigquit, sigabrt, sigterm, sigtstp] at hget ⊢

theorem Kernel.set_apply (n : Nat) (t : Table (Fn H)) :
    k.set n t signum = if k.sets n ∧ signum = n then .function .aggregateHandler else t signum := by
  unfold Kernel.set
  by_cases hk : k.sets n = true
  · simp [hk, Function.update_apply]
  · simp [hk]

/-- What `init_signal` installs. -/
theorem initSignal_table (hk : ∀ n ∈ aggregated, k.sets n) (h : signum ∈ aggregated) :
    (initSignal k table).2 signum = .function .aggregateHandler := by
  have hset := hk signum h
  simp only [initSignal, Kernel.set_apply]
  obtain rfl | rfl | rfl | rfl | rfl | rfl := mem_aggregated.mp h <;> simp [hset]

end Saved

/-! ## Deliveries -/

section Deliveries

variable {k : Kernel} {table : Table H} {signum : Nat} (hk : ∀ n ∈ aggregated, k.gets n ∧ k.sets n)
  (h : signum ∈ aggregated)
include hk h

/-- A signal after `init_signal`: the handler saved for it is called, unless that is null. -/
theorem deliverTraced_eq : deliverTraced (initSignal k table).1 (initSignal k table).2 signum =
    if (table signum).nonnull then callPointer (table signum) signum else .ignored := by
  rw [deliverTraced, deliver, initSignal_table (fun n hn => (hk n hn).2) h]
  simp only
  rw [aggregateHandler_eq h, initSignal_old (fun n hn => (hk n hn).1) h]
  split_ifs <;> rfl

/-- A handler of the application is called, with the tracer or without. -/
theorem deliver_handled (hh : Handled table signum) :
    deliverTraced (initSignal k table).1 (initSignal k table).2 signum = deliverBare table signum ∧
      (deliverTraced (initSignal k table).1 (initSignal k table).2 signum).ends = false := by
  obtain ⟨f, hf⟩ := hh
  rw [deliverTraced_eq hk h, deliverBare, deliver, hf]
  constructor
  · rfl
  · rfl

/-- A default action is lost, and a signal that is ignored makes the process crash. -/
theorem deliver_unhandled (hh : ¬ Handled table signum) :
    deliverTraced (initSignal k table).1 (initSignal k table).2 signum ≠ deliverBare table signum := by
  rw [deliverTraced_eq hk h, deliverBare, deliver]
  cases hp : table signum with
  | sigDfl => simp [SaHandler.nonnull]
  | sigIgn => simp [SaHandler.nonnull, callPointer]
  | function f => exact absurd ⟨f, hp⟩ hh

end Deliveries

/-- **The effects are the same exactly when each signal had a handler.** After `init_signal` has saved the dispositions
and installed `aggregate_handler`, for every table of dispositions and every sequence of deliveries of the six signals:
the application sees the effects that it would see without the tracer, if and only if each of the signals delivered had
a handler of the application. -/
theorem effects_eq_iff (k : Kernel) (hk : ∀ n ∈ aggregated, k.gets n ∧ k.sets n) (table : Table H)
    (signums : List Nat) (hsig : ∀ n ∈ signums, n ∈ aggregated) :
    effects (deliverTraced (initSignal k table).1 (initSignal k table).2) signums =
      effects (deliverBare table) signums ↔ ∀ n ∈ signums, Handled table n := by
  apply untilEnd_eq_iff
  · intro n hn hh
    exact deliver_handled hk (hsig n hn) hh
  · intro n hn hh
    exact deliver_unhandled hk (hsig n hn) hh

/-! ## A process with handlers, and one without -/

/-- A kernel in which `sigaction` succeeds. -/
def kernel : Kernel := ⟨fun _ => true, fun _ => true⟩

/-- A process with a handler for `SIGINT` and for no other signal. -/
def appTable : Table Nat := fun n => if n = sigint then .function 7 else .sigDfl

/-- `SIGINT` twice. -/
theorem sigint_preserved : effects (deliverTraced (initSignal kernel appTable).1 (initSignal kernel appTable).2)
      [sigint, sigint] = effects (deliverBare appTable) [sigint, sigint] ∧
    effects (deliverBare appTable) [sigint, sigint] = [.called 7 sigint, .called 7 sigint] := by
  constructor
  · apply (effects_eq_iff kernel (fun _ _ => ⟨rfl, rfl⟩) appTable [sigint, sigint] (by decide)).mpr
    intro n hn
    obtain rfl : n = sigint := by simpa using hn
    exact ⟨7, rfl⟩
  · rfl

/-- **`SIGTERM` no longer ends a process without a handler.** -/
theorem sigterm_lost : ¬ ∀ (table : Table Nat) (signums : List Nat), (∀ n ∈ signums, n ∈ aggregated) →
    effects (deliverTraced (initSignal kernel table).1 (initSignal kernel table).2) signums =
      effects (deliverBare table) signums := by
  intro h
  have hterm := h appTable [sigterm, sigint] (by decide)
  revert hterm
  decide

end Cosmost.Signal
