import Cosmost.Lib.Run
import Mathlib.Data.List.Nodup

/-!
# The life of the flusher thread (`flusher.c`)

`start_flusher_thread` publishes a `thread_info` in `flusher_info` and creates the thread, which reads the record in its
loop and frees it when the loop ends. `stop_flusher_thread` reads the record, asks the thread to end, joins it and frees
the record too; the exit path runs it twice. A child that a process forks has `flusher_info`, but not the thread.

`sound_iff`: in a run of these events, records are freed at most once and never read after, and `flusher_info` is set
exactly while there is a thread to join, if and only if every step is `Sound`: no thread creation fails, the process forks
only while `flusher_info` is null, and `stop_flusher_thread` gets no further once the loop has ended. So a call of it that
finds the thread never returns well (`stop_frees_twice`).
-/

namespace Cosmost.Flusher.Life

open Cosmost.Lib

/-- The flusher thread of the process. -/
inductive Thread
  /-- There is none. -/
  | none
  /-- Before it reads `info->ptr`. -/
  | entered (info : Nat)
  /-- Before the `sleep` of its loop. -/
  | looping (info : Nat)
  /-- It has ended, and was not joined. -/
  | ended
  deriving DecidableEq, Repr

/-- There is a thread that was created and not joined. -/
def Thread.joinable : Thread → Bool
  | .none => false
  | _ => true

/-- `pthread_join` would wait for it. -/
def Thread.running : Thread → Bool
  | .entered _ | .looping _ => true
  | _ => false

/-- Where the exit path stands in `stop_flusher_thread`. -/
inductive Stop
  /-- Outside. -/
  | idle
  /-- Before it reads `flusher_info->tid`. -/
  | tid
  /-- Before the `fetch_and_or` of `flusher_info->interrupt`. -/
  | interrupt
  /-- In `pthread_join`, or before the `free`. -/
  | join
  deriving DecidableEq, Repr

/-- The process. A `thread_info` is called by the number of its allocation, which its address may share with one that was
freed; `0` is null. `pending` are those that were allocated by calls of `start_flusher_thread` before their
compare-and-swap. The last two fields are not part of the process: what was freed, in order, and what was read after. -/
structure State where
  flusherInfo : Nat
  allocated : Nat
  interrupt : Nat → Bool
  pending : List Nat
  thread : Thread
  stop : Stop
  freed : List Nat
  stale : List Nat

/-- The program starts. -/
def State.init : State := ⟨0, 0, fun _ => false, [], .none, .idle, [], []⟩

/-- `free`. -/
def State.free (s : State) (info : Nat) : State := { s with freed := s.freed ++ [info] }

/-- A field of the record is read. -/
def State.read (s : State) (info : Nat) : State := if info ∈ s.freed then { s with stale := s.stale ++ [info] } else s

/-- What happens to the process. -/
inductive Event
  /-- `start_flusher_thread` up to the compare-and-swap: one of its first tests holds, or not, and `malloc` succeeds, or
  not. -/
  | start (skip ok : Bool)
  /-- Its rest, for the record it has allocated, with what `pthread_create` returns. -/
  | create (info : Nat) (ret : Int)
  /-- The thread goes on, once around its loop; the process has the name that ends it, or not. -/
  | flusher (named : Bool)
  /-- `fork`: the process is its child from here on. -/
  | fork
  /-- The exit path calls `stop_flusher_thread`, if it is not in it. -/
  | exit
  /-- It goes on there. -/
  | stop
  deriving DecidableEq

/-- `pthread_create` returns `0` or a positive error number. -/
def Event.Posix : Event → Prop
  | .create _ ret => 0 ≤ ret
  | _ => True

instance (e : Event) : Decidable e.Posix := by
  cases e <;> unfold Event.Posix <;> infer_instance

/-- `start_flusher_thread` from the compare-and-swap on. -/
def State.create (s : State) (info : Nat) (ret : Int) : State :=
  if s.flusherInfo ≠ 0 then s.free info
  else
    let s := { s with flusherInfo := info, interrupt := Function.update s.interrupt info false }
    if ret = -1 then { s with flusherInfo := 0 }.free info
    else if ret = 0 then { s with thread := .entered info }
    else s

/-- The thread goes on. -/
def State.flusher (s : State) (named : Bool) : State :=
  match s.thread with
  | .entered info => { s.read info with thread := .looping info }
  | .looping info =>
    if named then { s.free info with thread := .ended }
    else if s.interrupt info then { (s.read info).free info with thread := .ended }
    -- `info->interrupt`, then `info->last_flush`
    else (s.read info).read info
  | .none | .ended => s

/-- `stop_flusher_thread` goes on. -/
def State.goOn (s : State) : State :=
  match s.stop with
  | .idle => s
  | .tid => { s.read s.flusherInfo with stop := .interrupt }
  | .interrupt =>
    { s.read s.flusherInfo with interrupt := Function.update s.interrupt s.flusherInfo true, stop := .join }
  | .join => if s.thread.running then s else { s.free s.flusherInfo with thread := .none, stop := .idle }

/-- An event. One that cannot happen changes nothing. -/
def State.step (s : State) : Event → State
  | .start skip ok =>
    if s.flusherInfo ≠ 0 ∨ skip ∨ ¬ ok then s
    else { s with allocated := s.allocated + 1, pending := s.pending ++ [s.allocated + 1] }
  | .create info ret => if info ∈ s.pending then { s with pending := s.pending.erase info }.create info ret else s
  | .flusher named => s.flusher named
  | .fork => { s with pending := [], thread := .none, stop := .idle }
  | .exit => if s.stop = .idle ∧ s.flusherInfo ≠ 0 then { s with stop := .tid } else s
  | .stop => s.goOn

/-- Each record was freed at most once and not read after, and `flusher_info` is set exactly while there is a thread
that was created and not joined. -/
def State.Well (s : State) : Prop := s.freed.Nodup ∧ s.stale = [] ∧ (s.flusherInfo ≠ 0 ↔ s.thread.joinable = true)

instance (s : State) : Decidable s.Well := inferInstanceAs (Decidable (_ ∧ _ ∧ _))

/-- The creation of the thread does not fail, the process does not fork while `flusher_info` is set, and
`stop_flusher_thread` does nothing once the loop has ended. -/
def State.Sound (s : State) : Event → Prop
  | .create info ret => info ∈ s.pending ∧ s.flusherInfo = 0 → ret = 0
  | .fork => s.flusherInfo = 0
  | .stop => s.stop = .idle ∨ s.thread.running = true
  | _ => True

instance (s : State) (e : Event) : Decidable (s.Sound e) := by
  cases e <;> unfold State.Sound <;> infer_instance

/-! ## The invariant -/

/-- The record belongs to the thread as long as its loop runs, and was freed once it has ended. -/
def Thread.Owns (flusherInfo : Nat) (freed : List Nat) : Thread → Prop
  | .none => True
  | .entered info | .looping info => info = flusherInfo ∧ info ∉ freed
  | .ended => flusherInfo ∈ freed

/-- Records that were freed, published or not yet published are different ones. -/
structure State.Inv (s : State) : Prop where
  well : s.Well
  freed : ∀ a ∈ s.freed, a ≤ s.allocated
  published : s.flusherInfo ≤ s.allocated
  pending : ∀ a ∈ s.pending, 0 < a ∧ a ≤ s.allocated ∧ a ∉ s.freed ∧ a ≠ s.flusherInfo
  once : s.pending.Nodup
  owns : s.thread.Owns s.flusherInfo s.freed
  stopping : s.stop ≠ .idle → s.flusherInfo ≠ 0

theorem State.inv_init : State.init.Inv where
  well := ⟨List.nodup_nil, rfl, by decide⟩
  freed := fun a ha => absurd ha List.not_mem_nil
  published := Nat.le_refl 0
  pending := fun a ha => absurd ha List.not_mem_nil
  once := List.nodup_nil
  owns := trivial
  stopping := fun h => absurd rfl h

section Step

variable {s : State} {info : Nat} {ret : Int} {named : Bool}

theorem State.read_of_notMem (h : info ∉ s.freed) : s.read info = s := if_neg h

/-- A read of a record that was freed is not well. -/
theorem State.stale_read (h : info ∈ s.freed) : (s.read info).stale ≠ [] := by
  simp [State.read, h]

/-- Without a thread `flusher_info` is null. -/
theorem State.Inv.thread_none (h : s.Inv) (hnull : s.flusherInfo = 0) : s.thread = .none := by
  have hjoin : ¬ s.thread.joinable = true := fun hj => h.well.2.2.mpr hj hnull
  cases ht : s.thread with
  | none => rfl
  | _ => exact absurd (by rw [ht]; rfl) hjoin

/-- Once the loop has ended, the record that the exit path uses was freed. -/
theorem State.Inv.freed_of_stop (h : s.Inv) (hstop : s.stop ≠ .idle) (hrun : ¬ s.thread.running = true) :
    s.flusherInfo ∈ s.freed := by
  have hjoin := h.well.2.2.mp (h.stopping hstop)
  have howns := h.owns
  cases ht : s.thread with
  | none => rw [ht] at hjoin; cases hjoin
  | entered info => exact absurd (by rw [ht]; rfl) hrun
  | looping info => exact absurd (by rw [ht]; rfl) hrun
  | ended => rw [ht] at howns; exact howns

/-- A running thread has its record. -/
theorem State.Inv.live_of_running (h : s.Inv) (hrun : s.thread.running = true) : s.flusherInfo ∉ s.freed := by
  have howns := h.owns
  cases ht : s.thread with
  | none => rw [ht] at hrun; cases hrun
  | ended => rw [ht] at hrun; cases hrun
  | _ =>
    rw [ht] at howns
    rw [← howns.1]
    exact howns.2

/-! ## The steps -/

/-- `start_flusher_thread` allocates a record. -/
theorem State.Inv.start (h : s.Inv) (skip ok : Bool) : (s.step (.start skip ok)).Inv := by
  simp only [State.step]
  split_ifs with hskip
  · exact h
  · have hnew : s.allocated + 1 ∉ s.pending := fun hm => by
      have := (h.pending _ hm).2.1
      omega
    exact
      { h with
        freed := fun a ha => Nat.le_trans (h.freed a ha) (Nat.le_succ _)
        published := Nat.le_trans h.published (Nat.le_succ _)
        pending := fun a ha => by
          rcases List.mem_append.mp ha with ha | ha
          · obtain ⟨h1, h2, h3, h4⟩ := h.pending a ha
            exact ⟨h1, Nat.le_trans h2 (Nat.le_succ _), h3, h4⟩
          · obtain rfl := List.mem_singleton.mp ha
            refine ⟨Nat.succ_pos _, Nat.le_refl _, fun hf => ?_, fun heq => ?_⟩
            · have := h.freed _ hf
              omega
            · have := h.published
              have heq' : s.allocated + 1 = s.flusherInfo := heq
              omega
        once := h.once.append (List.nodup_singleton _) (by simpa using hnew) }

/-- The other records that are not yet published. -/
theorem State.Inv.others (h : s.Inv) (hinfo : info ∈ s.pending) {a : Nat} (ha : a ∈ s.pending.erase info) :
    a ≠ info ∧ a ∈ s.pending := by
  refine ⟨?_, List.mem_of_mem_erase ha⟩
  rintro rfl
  exact h.once.not_mem_erase ha

/-- Another call has published its record: this one is freed. -/
theorem State.Inv.lose (h : s.Inv) (hinfo : info ∈ s.pending) :
    State.Inv ({ s with pending := s.pending.erase info }.free info) := by
  obtain ⟨hpos, hle, hnew, hne⟩ := h.pending info hinfo
  exact
    { h with
      well := ⟨h.well.1.append (List.nodup_singleton info) (by simpa using hnew), h.well.2⟩
      freed := fun a ha => by
        rcases List.mem_append.mp ha with ha | ha
        · exact h.freed a ha
        · rw [List.mem_singleton.mp ha]
          exact hle
      pending := fun a ha => by
        obtain ⟨hai, hap⟩ := h.others hinfo ha
        obtain ⟨h1, h2, h3, h4⟩ := h.pending a hap
        exact ⟨h1, h2, by simp [State.free, h3, hai], h4⟩
      once := h.once.erase info
      owns := by
        have howns := h.owns
        change s.thread.Owns s.flusherInfo (s.freed ++ [info])
        cases ht : s.thread with
        | none => trivial
        | ended =>
          rw [ht] at howns
          exact List.mem_append_left _ howns
        | _ a =>
          rw [ht] at howns
          obtain ⟨rfl, hlive⟩ := howns
          exact ⟨rfl, by simp [hlive, hne.symm]⟩ }

/-- The thread is created. -/
theorem State.Inv.publish (h : s.Inv) (hinfo : info ∈ s.pending) :
    State.Inv { s with
      pending := s.pending.erase info, flusherInfo := info, interrupt := Function.update s.interrupt info false,
      thread := .entered info } := by
  obtain ⟨hpos, hle, hnew, -⟩ := h.pending info hinfo
  exact
    { h with
      well := ⟨h.well.1, h.well.2.1, by simp [Thread.joinable]; omega⟩
      published := hle
      pending := fun a ha => by
        obtain ⟨hai, hap⟩ := h.others hinfo ha
        obtain ⟨h1, h2, h3, -⟩ := h.pending a hap
        exact ⟨h1, h2, h3, hai⟩
      once := h.once.erase info
      owns := ⟨rfl, hnew⟩
      stopping := fun _ => Nat.ne_of_gt hpos }

theorem State.step_create_lost (hinfo : info ∈ s.pending) (hset : s.flusherInfo ≠ 0) :
    s.step (.create info ret) = { s with pending := s.pending.erase info }.free info := by
  simp [State.step, hinfo, State.create, hset]

theorem State.step_create_ok (hinfo : info ∈ s.pending) (hnull : s.flusherInfo = 0) :
    s.step (.create info 0) = { s with
      pending := s.pending.erase info, flusherInfo := info, interrupt := Function.update s.interrupt info false,
      thread := .entered info } := by
  simp [State.step, hinfo, State.create, hnull]

/-- A positive error number is not the `-1` that the code tests for. -/
theorem State.step_create_failed (hinfo : info ∈ s.pending) (hnull : s.flusherInfo = 0) (hret : 0 < ret) :
    s.step (.create info ret) = { s with
      pending := s.pending.erase info, flusherInfo := info, interrupt := Function.update s.interrupt info false } := by
  have hneg : ret ≠ -1 := by omega
  have hzero : ret ≠ 0 := by omega
  simp [State.step, hinfo, State.create, hnull, hneg, hzero]

/-- The compare-and-swap and the creation: well if and only if the creation does not fail. -/
theorem State.Inv.create (h : s.Inv) (hret : 0 ≤ ret) :
    (s.Sound (.create info ret) ↔ (s.step (.create info ret)).Well) ∧
      (s.Sound (.create info ret) → (s.step (.create info ret)).Inv) := by
  by_cases hinfo : info ∈ s.pending
  · by_cases hnull : s.flusherInfo = 0
    · rcases Int.lt_or_eq_of_le hret with hpos | rfl
      · -- there is no thread
        have hsound : ¬ s.Sound (.create info ret) := fun hs => by
          have := hs ⟨hinfo, hnull⟩
          omega
        refine ⟨iff_of_false hsound fun hwell => ?_, fun hs => absurd hs hsound⟩
        rw [State.step_create_failed hinfo hnull hpos] at hwell
        have hjoin := hwell.2.2.mp (Nat.ne_of_gt (h.pending info hinfo).1)
        rw [h.thread_none hnull] at hjoin
        cases hjoin
      · have hinv : (s.step (.create info 0)).Inv := by
          rw [State.step_create_ok hinfo hnull]
          exact h.publish hinfo
        exact ⟨iff_of_true (fun _ => rfl) hinv.well, fun _ => hinv⟩
    · have hinv : (s.step (.create info ret)).Inv := by
        rw [State.step_create_lost hinfo hnull]
        exact h.lose hinfo
      exact ⟨iff_of_true (fun hs => absurd hs.2 hnull) hinv.well, fun _ => hinv⟩
  · have hinv : (s.step (.create info ret)).Inv := by
      rw [State.step, if_neg hinfo]
      exact h
    exact ⟨iff_of_true (fun hs => absurd hs.1 hinfo) hinv.well, fun _ => hinv⟩

/-- The loop ends, and the thread frees its record. -/
theorem State.Inv.endLoop (h : s.Inv) (ht : s.thread = .looping info) :
    State.Inv { s.free info with thread := .ended } := by
  have howns := h.owns
  rw [ht] at howns
  obtain ⟨rfl, hlive⟩ := howns
  exact
    { h with
      well := by
        refine ⟨h.well.1.append (List.nodup_singleton _) (by simpa using hlive), h.well.2.1, ?_⟩
        have hjoin := h.well.2.2
        rw [ht] at hjoin
        exact hjoin
      freed := fun a ha => by
        rcases List.mem_append.mp ha with ha | ha
        · exact h.freed a ha
        · rw [List.mem_singleton.mp ha]
          exact h.published
      pending := fun a ha => by
        obtain ⟨h1, h2, h3, h4⟩ := h.pending a ha
        exact ⟨h1, h2, by simp [State.free, h3, h4], h4⟩
      owns := List.mem_append_right _ (List.mem_singleton.mpr rfl) }

/-- The thread goes on: it reads its record as long as it is there. -/
theorem State.Inv.flusher (h : s.Inv) (named : Bool) : (s.flusher named).Inv := by
  have howns := h.owns
  cases ht : s.thread with
  | none =>
    rw [State.flusher, ht]
    exact h
  | ended =>
    rw [State.flusher, ht]
    exact h
  | entered info =>
    rw [ht] at howns
    rw [State.flusher, ht]
    simp only [State.read_of_notMem howns.2]
    have hjoin := h.well.2.2
    rw [ht] at hjoin
    exact { h with well := ⟨h.well.1, h.well.2.1, hjoin⟩, owns := howns }
  | looping info =>
    rw [ht] at howns
    rw [State.flusher, ht]
    simp only [State.read_of_notMem howns.2]
    split_ifs
    · exact h.endLoop ht
    · exact h.endLoop ht
    · exact h

/-- `fork`: well if and only if there was no record. -/
theorem State.Inv.fork (h : s.Inv) : (s.Sound .fork ↔ (s.step .fork).Well) ∧ (s.Sound .fork → (s.step .fork).Inv) := by
  have hinv : s.flusherInfo = 0 → (s.step .fork).Inv := fun hnull =>
    { h with
      well := ⟨h.well.1, h.well.2.1, by simp [State.step, hnull, Thread.joinable]⟩
      pending := fun a ha => absurd ha List.not_mem_nil
      once := List.nodup_nil
      owns := trivial
      stopping := fun hs => absurd rfl hs }
  refine ⟨⟨fun hs => (hinv hs).well, fun hwell => ?_⟩, hinv⟩
  by_contra hset
  have hjoin := hwell.2.2.mp hset
  cases hjoin

/-- The exit path calls `stop_flusher_thread`. -/
theorem State.Inv.exit (h : s.Inv) : (s.step .exit).Inv := by
  simp only [State.step]
  split_ifs with hset
  · exact { h with stopping := fun _ => hset.2 }
  · exact h

/-- It goes on there: well if and only if the loop has not ended. -/
theorem State.Inv.goOn (h : s.Inv) : (s.Sound .stop ↔ s.goOn.Well) ∧ (s.Sound .stop → s.goOn.Inv) := by
  by_cases hidle : s.stop = .idle
  · have hinv : s.goOn.Inv := by
      rw [State.goOn, hidle]
      exact h
    exact ⟨iff_of_true (Or.inl hidle) hinv.well, fun _ => hinv⟩
  by_cases hrun : s.thread.running = true
  · have hlive := h.live_of_running hrun
    have hset := h.stopping hidle
    have hinv : s.goOn.Inv := by
      cases hs : s.stop with
      | idle => exact absurd hs hidle
      | tid =>
        rw [State.goOn, hs]
        simp only [State.read_of_notMem hlive]
        exact { h with stopping := fun _ => hset }
      | interrupt =>
        rw [State.goOn, hs]
        simp only [State.read_of_notMem hlive]
        exact { h with stopping := fun _ => hset }
      | join =>
        rw [State.goOn, hs]
        simp only [hrun, ↓reduceIte]
        exact h
    exact ⟨iff_of_true (Or.inr hrun) hinv.well, fun _ => hinv⟩
  · -- the thread has freed the record
    have hfreed := h.freed_of_stop hidle hrun
    have hsound : ¬ s.Sound .stop := fun hs => hs.elim hidle hrun
    refine ⟨iff_of_false hsound fun hwell => ?_, fun hs => absurd hs hsound⟩
    rw [State.goOn] at hwell
    cases hs : s.stop with
    | idle => exact hidle hs
    | tid =>
      rw [hs] at hwell
      exact State.stale_read hfreed hwell.2.1
    | interrupt =>
      rw [hs] at hwell
      exact State.stale_read hfreed hwell.2.1
    | join =>
      simp only [hs, hrun] at hwell
      have hnodup : (s.freed ++ [s.flusherInfo]).Nodup := hwell.1
      exact (List.nodup_append.mp hnodup).2.2 _ hfreed _ (List.mem_singleton.mpr rfl) rfl

/-- **One step** from a state with the invariant is well if and only if it is sound, and then keeps the invariant. -/
theorem State.Inv.step (h : s.Inv) (e : Event) (he : e.Posix) :
    (s.Sound e ↔ (s.step e).Well) ∧ (s.Sound e → (s.step e).Inv) := by
  cases e with
  | start skip ok => exact ⟨iff_of_true trivial (h.start skip ok).well, fun _ => h.start skip ok⟩
  | create info ret => exact h.create he
  | flusher named => exact ⟨iff_of_true trivial (h.flusher named).well, fun _ => h.flusher named⟩
  | fork => exact h.fork
  | exit => exact ⟨iff_of_true trivial h.exit.well, fun _ => h.exit⟩
  | stop => exact h.goOn

/-- **The life cycle is well exactly in runs of sound steps.** -/
theorem sound_iff {es : List Event} (hes : ∀ e ∈ es, e.Posix) :
    EachStep State.step State.Sound .init es ↔ EachStep State.step (fun s e => (s.step e).Well) .init es :=
  eachStep_iff (fun _ e (h : State.Inv _) he => (h.step e he).1) (fun _ e h he hs => (h.step e he).2 hs) State.inv_init hes

end Step

/-! ## Runs that are not well -/

/-- Two calls race to start the thread, which ends by the name of the process. -/
def racing : List Event :=
  [.start false true, .start false true, .create 2 0, .create 1 0, .flusher false, .flusher false, .flusher true]

theorem racing_well : EachStep State.step (fun s e => (s.step e).Well) .init racing :=
  (sound_iff (by decide)).mp (by decide)

/-- The thread starts, and the process exits. -/
def exiting : List Event :=
  [.start false true, .create 1 0, .flusher false, .exit, .stop, .stop, .flusher false, .stop]

/-- **The thread and `stop_flusher_thread` both free the record.** A creation that fails leaves a record without a
thread, and so does a fork. -/
theorem stop_frees_twice :
    ((∀ e ∈ exiting, e.Posix) ∧ (exiting.foldl State.step .init).freed = [1, 1] ∧
        ¬ (exiting.foldl State.step .init).Well) ∧
      ¬ ([.start false true, .create 1 11].foldl State.step .init).Well ∧
      ¬ ([.start false true, .create 1 0, .fork].foldl State.step .init).Well := by
  decide

end Cosmost.Flusher.Life
