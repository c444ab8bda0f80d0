import Cosmost.Bblog.Calls

/-!
# Falling back to unbatched logging

After a failed `memalign` there is no current buffer, and after `bblog_exit(1)` the current buffer has no word. The loop of
`_blog` increments the word before it looks at it, and takes the increment back from the buffer that the word designates
before it calls `no_batch_blog`: both go through a null pointer. So the call that should fall back faults, and no record
ever leaves through `no_batch_blog`.

`keeps_iff`: a record is kept exactly when the current buffer has room for it, or is not there to stay: a new one can be
allocated, and the record fits behind its prefix.
-/

namespace Cosmost.Bblog

open Cosmost.Lib

/-- `bblog` accepts the record. -/
def Accepted (body : Option (List Char)) (s : State) : Prop :=
  (record (recordKey s.nextCntr) body).length - 1 < bufferSize - 2

instance (body : Option (List Char)) (s : State) : Decidable (Accepted body s) := inferInstanceAs (Decidable (_ < _))

/-- The record is in the current buffer, before the index. -/
def InCurrent (e : Process) (m : List Char) (s : State) : Prop :=
  ∃ off, Holds (s.mem s.procPibr).buf off m ∧
    (s.mem s.procPibr).pibr = packBuffer s.procPibr e.pid (off + m.length) 0

/-- The last text in the log is the whole record under the tag of records that are not batched. -/
def OutUnbatched (e : Process) (m : List Char) (s : State) : Prop :=
  s.trace.getLast? = some (.unbatched (prefixText e ++ m ++ "\"NOBATCH\":\"YES\"\x7d\x7d".toList))

/-- A call of `bblog` goes through no null pointer, and returns with the record in the current buffer or in the log. -/
def Keeps (A : Allocator) (e : Process) (body : Option (List Char)) (s : State) : Prop :=
  (∀ n, bblog A e n body s ≠ .error .fault) ∧
  ∃ n ret s', bblog A e n body s = .ok (ret, s') ∧
    (InCurrent e (record (recordKey s.nextCntr) body) s' ∨ OutUnbatched e (record (recordKey s.nextCntr) body) s')

/-- There is a current buffer with a word, and it has room for the record, or `memalign` has a new one and that has. -/
def CanStore (A : Allocator) (e : Process) (m : List Char) (s : State) : Prop :=
  s.procPibr ≠ 0 ∧ (s.mem s.procPibr).pibr ≠ 0 ∧
  (pibrPid (s.mem s.procPibr).pibr = e.pid ∧
      pibrIdx (s.mem s.procPibr).pibr + m.length < loggerEntryMaxPayload - 32 ∨
    (A.memalign s.allocs s.live).isSome ∧ FitsEmpty (freshPrefix e s).length m)

section Keeps

variable {A : Allocator} {e : Process} {m : List Char} {s : State}

/-- A loop that returns after some number of turns goes through no null pointer in fewer. -/
theorem blogLoop_no_fault {r : Int × State} (n : Nat) : ∀ {s : State}, blogLoop A e m n s = .ok r →
    ∀ k, blogLoop A e m k s ≠ .error .fault := by
  induction n with
  | zero => intro s hr; simp [blogLoop] at hr
  | succ n ih =>
    intro s hr k
    cases k with
    | zero => simp [blogLoop]
    | succ k =>
      cases ht : blogTurn A e m s with
      | error x => simp [blogLoop, ht, bind, Except.bind] at hr
      | ok x =>
        obtain ⟨ret, s'⟩ := x
        cases ret with
        | none =>
          rw [blogLoop_next ht] at hr ⊢
          exact ih hr k
        | some ret =>
          rw [blogLoop_done ht]
          simp

/-- After `bblog_exit(1)` the call goes through a null pointer. -/
theorem bblog_cleared (h : Cleared s) {body : Option (List Char)} (hbody : Accepted body s) (n : Nat) :
    bblog A e (n + 1) body s = .error .fault := by
  have hc : Cleared { s with cntr := s.nextCntr } := ⟨h.page, h.live, h.word⟩
  rw [bblog, if_neg (Nat.not_le.mpr hbody)]
  simp only [blogLoop, blogTurn_cleared hc]
  rfl

/-- A state in which the record can be stored has a current buffer. -/
theorem CanStore.ready (h : CanStore A e m s) (hs : Sane s) : ∃ msgs, Ready s msgs := by
  rcases hs.current with hp | hc | hr
  · exact absurd hp h.1
  · exact absurd hc.word h.2.1
  · exact hr

/-- A loop that returns could store its record. -/
theorem canStore_of_ok (he : e.Fits) (hs : Sane s) {n : Nat} {r : Int × State} (hr : blogLoop A e m n s = .ok r) :
    CanStore A e m s := by
  rcases hs.current with hp | hc | ⟨msgs, h⟩
  · exact absurd hr (blogLoop_null hp _ _)
  · exact absurd hr (blogLoop_cleared hc _ _)
  · obtain ⟨hptr, hpid, hidx, -⟩ := h.word_fields
    have hp0 : s.procPibr ≠ 0 := by have := h.page.1; omega
    refine ⟨hp0, fun hw => ?_, ?_⟩
    · have hzero : pibrPtr 0 = 0 := by decide
      rw [hw, hzero] at hptr
      exact hp0 hptr.symm
    · rw [hpid, hidx]
      by_cases hfit : s.procid = e.pid ∧ s.prefixLen + msgs.flatten.length + m.length < loggerEntryMaxPayload - 32
      · exact Or.inl hfit
      · have hsome : (A.memalign s.allocs s.live).isSome := by
          by_contra hnone
          obtain ⟨s', hs', hnull⟩ := blogTurn_unserved h m (Option.not_isSome_iff_eq_none.mp hnone) hfit
          cases n with
          | zero => simp [blogLoop] at hr
          | succ n =>
            rw [blogLoop_next hs'] at hr
            exact blogLoop_null hnull n r hr
        refine Or.inr ⟨hsome, ?_⟩
        by_contra hm
        exact blogLoop_overlong he n h hm r hr

/-- A record that can be stored is. -/
theorem CanStore.stores (hc : CanStore A e m s) (he : e.Fits) (hs : Sane s) :
    ∃ s', blogLoop A e m 2 s = .ok (m.length, s') ∧ InCurrent e m s' := by
  obtain ⟨msgs, h⟩ := hc.ready hs
  obtain ⟨-, -, hfit | ⟨hA, hm⟩⟩ := hc
  · obtain ⟨-, hpid, hidx, -⟩ := h.word_fields
    rw [hpid, hidx] at hfit
    obtain ⟨s', hs', hst⟩ := blogTurn_stored (A := A) h m hfit.1 hfit.2
    exact ⟨s', blogLoop_done hs' 1, hst.in_buffer hfit.1⟩
  · obtain ⟨s', hs', hl⟩ := blogLoop_logged he h hA hm 0
    exact ⟨s', hs', hl.in_buffer⟩

/-- **A record is kept exactly when it can be stored.** In every state that calls of the logger reach, in whatever
processes and with whatever answers of `memalign`, for every record that `bblog` accepts: the call goes through no null
pointer, and returns with the record in the current buffer or whole in the log, if and only if there is a current buffer
with a word, and it has room for the record, or a new buffer can be allocated and has room. -/
theorem keeps_iff (A : Allocator) (s : State)
    (hs : Reach (Call.step A) (fun _ ev => ev.1.Fits) (fun s => ∃ c mem, s = .init c mem) s) (e : Process) (he : e.Fits)
    (body : Option (List Char)) (hbody : Accepted body s) :
    Keeps A e body s ↔ CanStore A e (record (recordKey s.nextCntr) body) s := by
  have hsane : Sane s := Reach.inv (by rintro _ ⟨c, mem, rfl⟩; exact sane_init c mem)
    (fun _ _ _ h he hstep => h.step he hstep) hs
  have hc := hsane.withCntr s.nextCntr
  have hloop : ∀ n, bblog A e n body s =
      blogLoop A e (record (recordKey s.nextCntr) body) n { s with cntr := s.nextCntr } := fun n =>
    if_neg (Nat.not_le.mpr hbody)
  constructor
  · rintro ⟨-, n, ret, s', hr, -⟩
    rw [hloop] at hr
    exact canStore_of_ok (s := { s with cntr := s.nextCntr }) he hc hr
  · intro hstore
    obtain ⟨s', hs', hin⟩ := CanStore.stores (s := { s with cntr := s.nextCntr }) hstore he hc
    refine ⟨fun n => ?_, 2, _, s', (hloop 2).trans hs', Or.inl hin⟩
    rw [hloop]
    exact blogLoop_no_fault 2 hs' n

end Keeps

/-! ## A record that is kept, and one that is not -/

/-- The first record of a process. -/
theorem first_record_kept : Keeps twoPages app (some ['x']) appStarted ↔
    CanStore twoPages app (record (recordKey 1) (some ['x'])) appStarted :=
  keeps_iff twoPages appStarted
    (.step (.init ⟨0, fun _ => ⟨0, fun _ => nul⟩, rfl⟩) (e := (app, .op .init)) app_fits rfl) app app_fits (some ['x'])
    (by decide)

/-- **After `bblog_exit(1)` a record is not kept**: the call goes through a null pointer. -/
theorem record_after_exit_lost : ∃ s,
    Reach (Call.step twoPages) (fun _ ev => ev.1.Fits) (fun s => ∃ c mem, s = .init c mem) s ∧
    Accepted (some ['x']) s ∧ bblog twoPages app 1 (some ['x']) s = .error .fault ∧
      ¬ Keeps twoPages app (some ['x']) s := by
  have hsane : Sane appStarted := appStarted_started.ready.sane (by decide)
  obtain ⟨hexit, hc⟩ := bblogExit_clears (A := twoPages) (e := app) hsane (by decide)
  have hstep : Call.step twoPages appStarted (app, .exit) = some (appStarted.setWord appStarted.procPibr 0) := by
    simp only [Call.step, hexit, Except.toOption]
  have hreach : Reach (Call.step twoPages) (fun _ ev => ev.1.Fits) (fun s => ∃ c mem, s = .init c mem) appStarted :=
    .step (.init ⟨0, fun _ => ⟨0, fun _ => nul⟩, rfl⟩) (e := (app, .op .init)) app_fits rfl
  have haccepted : Accepted (some ['x']) (appStarted.setWord appStarted.procPibr 0) := by decide
  have hfault := bblog_cleared (A := twoPages) (e := app) hc haccepted 0
  exact ⟨_, hreach.step (e := (app, .exit)) app_fits hstep, haccepted, hfault, fun hk => hk.1 1 hfault⟩

end Cosmost.Bblog
