import Cosmost.Bblog.Ready
import Cosmost.Lib.Run

/-!
# When the loop of `_blog` ends

A record is stored in the first turn if the current buffer belongs to this process and has room, and else in the second
turn, in a new buffer, if it fits an empty one. A record that fits no buffer is never stored: the loop swaps buffers
until `memalign` fails (`blogLoop_overlong`). `bblog` accepts such records.

`stores_within_two_iff`: from every state that calls of the logger reach, in whatever processes, a record that `bblog`
accepts is stored within two turns exactly when it fits behind the prefix of an empty buffer. `long_record_not_stored`
is a record that `bblog` accepts and that does not fit.
-/

namespace Cosmost.Bblog

open Cosmost.Lib

/-- The record fits behind a prefix of this length. -/
def FitsEmpty (prefixLen : Nat) (m : List Char) : Prop := prefixLen + m.length < loggerEntryMaxPayload - 32

instance (prefixLen : Nat) (m : List Char) : Decidable (FitsEmpty prefixLen m) := inferInstanceAs (Decidable (_ < _))

/-- `_blog` returns after at most two turns, and the record is in the current buffer, before the index. -/
def StoresWithinTwo (A : Allocator) (e : Process) (m : List Char) (s : State) : Prop :=
  ∃ s' off, blogLoop A e m 2 s = .ok (m.length, s') ∧ Holds (s'.mem s'.procPibr).buf off m ∧
    (s'.mem s'.procPibr).pibr = packBuffer s'.procPibr e.pid (off + m.length) 0

/-! ## Turns -/

section Loop

variable {A : Allocator} {e : Process} {s : State} {m : List Char}

theorem blogLoop_done {s' : State} {ret : Int} (h : blogTurn A e m s = .ok (some ret, s')) (n : Nat) :
    blogLoop A e m (n + 1) s = .ok (ret, s') := by
  simp only [blogLoop, h, bind, Except.bind]
  rfl

theorem blogLoop_next {s' : State} (h : blogTurn A e m s = .ok (none, s')) (n : Nat) :
    blogLoop A e m (n + 1) s = blogLoop A e m n s' := by
  simp only [blogLoop, h, bind, Except.bind]

/-- More turns change nothing. -/
theorem blogLoop_mono {r : Int × State} (n : Nat) : ∀ {s : State}, blogLoop A e m n s = .ok r →
    blogLoop A e m (n + 1) s = .ok r := by
  induction n with
  | zero => intro s h; simp [blogLoop] at h
  | succ n ih =>
    intro s h
    rw [blogLoop, bind, Except.instMonad] at h ⊢
    simp only [Except.bind] at h ⊢
    cases ht : blogTurn A e m s with
    | error err => rw [ht] at h; exact h
    | ok x =>
      obtain ⟨ret, s'⟩ := x
      rw [ht] at h
      cases ret with
      | none => exact ih h
      | some ret => exact h

/-- Without a current buffer nothing returns. -/
theorem blogLoop_null (h : s.procPibr = 0) (n : Nat) (r : Int × State) : blogLoop A e m n s ≠ .ok r := by
  cases n with
  | zero => simp [blogLoop]
  | succ n => simp [blogLoop, blogTurn, fetchAdd, h, bind, Except.bind]

/-- **A record that fits no buffer keeps the loop running, whatever `memalign` answers.** -/
theorem blogLoop_overlong (he : e.Fits) (n : Nat) : ∀ {s : State} {msgs : List (List Char)}, Ready s msgs →
    ¬ FitsEmpty (freshPrefix e s).length m → ∀ r, blogLoop A e m n s ≠ .ok r := by
  induction n with
  | zero => intro s msgs _ _ r; simp [blogLoop]
  | succ n ih =>
    intro s msgs h hm r
    have hfit : ¬(s.procid = e.pid ∧ s.prefixLen + msgs.flatten.length + m.length < loggerEntryMaxPayload - 32) := by
      rintro ⟨hpid, hlt⟩
      apply hm
      rw [freshPrefix, if_pos hpid, h.len, FitsEmpty]
      omega
    cases hA : A.memalign s.allocs s.live with
    | none =>
      obtain ⟨s', hs', hnull⟩ := blogTurn_unserved h m hA hfit
      rw [blogLoop_next hs']
      exact blogLoop_null hnull n r
    | some ap =>
      obtain ⟨s', hs', hsw⟩ := blogTurn_swapped h m he (by rw [hA]; rfl) hfit
      rw [blogLoop_next hs']
      refine ih hsw.ready ?_ r
      rw [freshPrefix, if_pos hsw.procid, hsw.prefixBuf]
      exact hm

/-- What `_blog` leaves of a current buffer: the record is stored in it or in a new one. -/
inductive Logged (e : Process) (m : List Char) (s : State) (msgs : List (List Char)) (s' : State) : Prop
  | stored : s.procid = e.pid → Stored s msgs m s' → Logged e m s msgs s'
  | swapped {s₁ : State} :
      ¬(s.procid = e.pid ∧ s.prefixLen + msgs.flatten.length + m.length < loggerEntryMaxPayload - 32) →
      Swapped e s msgs s₁ → Stored s₁ [] m s' → Logged e m s msgs s'

/-- **A record that fits an empty buffer is stored within two turns.** -/
theorem blogLoop_logged (he : e.Fits) {msgs : List (List Char)} (h : Ready s msgs)
    (hA : (A.memalign s.allocs s.live).isSome) (hm : FitsEmpty (freshPrefix e s).length m) (n : Nat) :
    ∃ s', blogLoop A e m (n + 2) s = .ok (m.length, s') ∧ Logged e m s msgs s' := by
  by_cases hfit : s.procid = e.pid ∧ s.prefixLen + msgs.flatten.length + m.length < loggerEntryMaxPayload - 32
  · obtain ⟨s', hs', hst⟩ := blogTurn_stored h m hfit.1 hfit.2
    exact ⟨s', blogLoop_done hs' _, .stored hfit.1 hst⟩
  · obtain ⟨s₁, hs₁, hsw⟩ := blogTurn_swapped h m he hA hfit
    have hroom : s₁.prefixLen + ([] : List (List Char)).flatten.length + m.length < loggerEntryMaxPayload - 32 := by
      rw [← hsw.ready.len, hsw.prefixBuf]
      exact hm
    obtain ⟨s', hs', hst⟩ := blogTurn_stored hsw.ready m hsw.procid hroom
    exact ⟨s', by rw [blogLoop_next hs₁, blogLoop_done hs'], .swapped hfit hsw hst⟩

/-- A loop that returns has stored its record. -/
theorem Ready.logged_of_ok (he : e.Fits) {msgs : List (List Char)} (h : Ready s msgs)
    (hA : (A.memalign s.allocs s.live).isSome) {n : Nat} {r : Int × State} (hr : blogLoop A e m n s = .ok r) :
    Logged e m s msgs r.2 := by
  have hm : FitsEmpty (freshPrefix e s).length m := by
    by_contra hm
    exact blogLoop_overlong he n h hm r hr
  obtain ⟨s', hs', hl⟩ := blogLoop_logged he h hA hm n
  rw [blogLoop_mono _ (blogLoop_mono _ hr)] at hs'
  rw [Except.ok.inj hs']
  exact hl

/-- A record is in the current buffer, before the index. -/
theorem Stored.in_buffer {msgs : List (List Char)} {s' : State} (h : Stored s msgs m s') (hpid : s.procid = e.pid) :
    ∃ off, Holds (s'.mem s'.procPibr).buf off m ∧
      (s'.mem s'.procPibr).pibr = packBuffer s'.procPibr e.pid (off + m.length) 0 := by
  refine ⟨(s'.prefixBuf ++ msgs.flatten).length, ?_, ?_⟩
  · have hh := h.ready.holds
    rw [List.flatten_append, List.flatten_singleton, ← List.append_assoc] at hh
    have hr := hh.right
    rwa [Nat.zero_add] at hr
  · rw [h.ready.word, h.procid, hpid, List.flatten_append, List.flatten_singleton, List.length_append,
      List.length_append, h.ready.len, Nat.add_assoc]

theorem Logged.in_buffer {msgs : List (List Char)} {s' : State} (h : Logged e m s msgs s') :
    ∃ off, Holds (s'.mem s'.procPibr).buf off m ∧
      (s'.mem s'.procPibr).pibr = packBuffer s'.procPibr e.pid (off + m.length) 0 := by
  cases h with
  | stored hpid hst => exact hst.in_buffer hpid
  | swapped _ hsw hst => exact hst.in_buffer hsw.procid

theorem Logged.ready {msgs : List (List Char)} {s' : State} (h : Logged e m s msgs s') : ∃ msgs', Ready s' msgs' := by
  cases h with
  | stored _ hst => exact ⟨_, hst.ready⟩
  | swapped _ _ hst => exact ⟨_, hst.ready⟩

/-- Storing within two turns, of a current buffer. -/
theorem Ready.storesWithinTwo_iff (he : e.Fits) {msgs : List (List Char)} (h : Ready s msgs)
    (hA : (A.memalign s.allocs s.live).isSome) :
    StoresWithinTwo A e m s ↔ FitsEmpty (freshPrefix e s).length m := by
  constructor
  · rintro ⟨s', off, hs', -⟩
    by_contra hm
    exact blogLoop_overlong he 2 h hm _ hs'
  · intro hm
    obtain ⟨s', hs', hl⟩ := blogLoop_logged he h hA hm 0
    obtain ⟨off, hh, hw⟩ := hl.in_buffer
    exact ⟨s', off, hs', hh, hw⟩

end Loop

/-! ## The states that the logger reaches -/

/-- A call of the logger. -/
inductive Op
  | init
  /-- `bblog`, which returns within `n` turns of its loop. -/
  | log (n : Nat) (body : Option (List Char))
  /-- `bblog_exit(-sig)`, in a signal handler. -/
  | signal (sig : Nat)

/-- The state after a call that returns; a call in another process than the last one comes after a fork. -/
def Op.step (A : Allocator) (s : State) : Process × Op → Option State
  | (e, .init) => some (bblogInit A e s)
  | (e, .log n body) => (bblog A e n body s).toOption.map Prod.snd
  | (e, .signal sig) => (bblogExit A e (-(sig + 1)) s).toOption

/-- The prefix of the process fits, and `memalign` succeeds. -/
def Served (A : Allocator) (s : State) (ev : Process × Op) : Prop :=
  ev.1.Fits ∧ (A.memalign s.allocs s.live).isSome

/-- The states after the first `bblog_init` of a process. -/
def Started (A : Allocator) (s : State) : Prop :=
  ∃ e c mem, e.Fits ∧ (A.memalign 0 []).isSome ∧ s = bblogInit A e (.init c mem)

/-- `bblog_init` makes the first buffer. -/
theorem bblogInit_fresh {A : Allocator} {e : Process} {s : State} (he : e.Fits) (hs : PrefixOk s)
    (hp : s.procPibr = 0) (hA : (A.memalign s.allocs s.live).isSome) :
    ∃ a s', bblogInit A e s = { s' with procPibr := a } ∧ Fresh e s a s' := by
  obtain ⟨a, s', heq, hf⟩ := allocBuffer_fresh he hs hA
  have ha : a ≠ 0 := by have := hf.page.1; omega
  exact ⟨a, s', by simp [bblogInit, swapBuffers, hp, heq, ha, hf.procPibr], hf⟩

theorem prefixOk_init (c : Nat) (mem : Nat → Pibr) : PrefixOk (.init c mem) := ⟨rfl, (by decide : 0 < maxPrefixLen)⟩

/-- The prefix of a first buffer. -/
theorem freshPrefix_init (e : Process) (c : Nat) (mem : Nat → Pibr) : freshPrefix e (.init c mem) = prefixText e :=
  if_neg (Nat.ne_of_lt e.pos)

theorem Started.ready {A : Allocator} {s : State} (h : Started A s) : Ready s [] := by
  obtain ⟨e, c, mem, he, hA, rfl⟩ := h
  obtain ⟨a, s', heq, hf⟩ := bblogInit_fresh (s := .init c mem) he (prefixOk_init c mem) rfl hA
  rw [heq]
  exact hf.ready he (prefixOk_init c mem) (by rw [freshPrefix_init]; exact length_prefixText_pos e)

/-- Calls that return keep a current buffer. -/
theorem Ready.step {A : Allocator} {s s' : State} {msgs : List (List Char)} (h : Ready s msgs) {ev : Process × Op}
    (hP : Served A s ev) (hstep : Op.step A s ev = some s') : ∃ msgs', Ready s' msgs' := by
  obtain ⟨e, op⟩ := ev
  obtain ⟨he, hA⟩ := hP
  have hp0 : s.procPibr ≠ 0 := by have := h.page.1; omega
  cases op with
  | init =>
    simp only [Op.step, bblogInit, swapBuffers, hp0, ne_eq, not_false_eq_true, ↓reduceIte, Option.some.injEq] at hstep
    exact ⟨msgs, hstep ▸ h⟩
  | log n body =>
    have hcntr : Ready { s with cntr := s.nextCntr } msgs := h.withCntr _
    simp only [Op.step, bblog] at hstep
    split_ifs at hstep
    · simp only [Except.toOption, Option.map_some, Option.some.injEq] at hstep
      exact ⟨msgs, hstep ▸ hcntr⟩
    · cases hr : blogLoop A e (record (recordKey s.nextCntr) body) n { s with cntr := s.nextCntr } with
      | error err => simp [hr, Except.toOption] at hstep
      | ok r =>
        simp only [hr, Except.toOption, Option.map_some, Option.some.injEq] at hstep
        exact hstep ▸ (hcntr.logged_of_ok he hA hr).ready
  | signal sig =>
    obtain ⟨s₁, hs₁, hsw⟩ := swapAndFlush_swapped he h hA
    have hneg : -((sig : Int) + 1) < 0 := by omega
    simp only [Op.step, bblogExit, hneg, ↓reduceIte, hs₁, Except.toOption, Option.some.injEq] at hstep
    exact ⟨[], hstep ▸ hsw.ready⟩

/-- The states that calls of the logger reach after `bblog_init`. -/
def Reached (A : Allocator) : State → Prop := Reach (Op.step A) (Served A) (Started A)

theorem Reached.ready {A : Allocator} {s : State} (h : Reached A s) : ∃ msgs, Ready s msgs :=
  Reach.inv (I := fun s => ∃ msgs, Ready s msgs) (fun _ hs => ⟨[], hs.ready⟩)
    (fun _ _ _ ⟨_, hr⟩ hP hstep => hr.step hP hstep) h

/-- **The loop ends within two turns exactly for the records that fit an empty buffer.** In every state that calls of
the logger reach, for every record, accepted by `bblog` or not: `_blog` stores it in the current buffer within two turns if
and only if the prefix that a new buffer of the process gets leaves room for it. -/
theorem stores_within_two_iff (A : Allocator) (s : State) (hs : Reached A s) (e : Process) (he : e.Fits)
    (hA : (A.memalign s.allocs s.live).isSome) (n : Nat) (body : Option (List Char)) :
    StoresWithinTwo A e (record (recordKey n) body) s ↔
      FitsEmpty (freshPrefix e s).length (record (recordKey n) body) := by
  obtain ⟨msgs, hr⟩ := hs.ready
  exact hr.storesWithinTwo_iff he hA

/-! ## A record that is accepted and never stored -/

/-- An allocator with two pages. -/
def twoPages : Allocator where
  memalign _ live :=
    if 4096 ∉ live then some (4096, ⟨0, fun _ => nul⟩)
    else if 8192 ∉ live then some (8192, ⟨0, fun _ => nul⟩)
    else none
  page := by
    intro n live a p h
    split_ifs at h <;> cases h <;> decide
  fresh := by
    intro n live a p h
    split_ifs at h with h1 h2 <;> cases h <;> assumption

/-- A process. -/
def app : Process := ⟨7, "app".toList, by decide, by unfold NulFree nul; decide⟩

theorem app_fits : app.Fits := ⟨by decide, by decide⟩

/-- The state after its `bblog_init`. -/
def appStarted : State := bblogInit twoPages app (.init 0 fun _ => ⟨0, fun _ => nul⟩)

theorem appStarted_started : Started twoPages appStarted := ⟨app, 0, _, app_fits, rfl, rfl⟩

/-- A short record. -/
theorem short_record_stored :
    StoresWithinTwo twoPages app (record (recordKey 1) (some ['x'])) appStarted ↔
      FitsEmpty (freshPrefix app appStarted).length (record (recordKey 1) (some ['x'])) :=
  stores_within_two_iff twoPages appStarted (.init appStarted_started) app app_fits (by decide) 1 (some ['x'])

/-- **`bblog` accepts a body of 5000 characters, and the loop does not store it in two turns.** -/
theorem long_record_not_stored :
    (record (recordKey 1) (some (List.replicate 5000 'x'))).length - 1 < bufferSize - 2 ∧
    ¬ StoresWithinTwo twoPages app (record (recordKey 1) (some (List.replicate 5000 'x'))) appStarted := by
  have hkey : (recordKey 1).length = 8 := by decide
  have hlen : (record (recordKey 1) (some (List.replicate 5000 'x'))).length = 5009 := by
    rw [record, List.length_append, List.length_append, List.length_replicate, hkey, List.length_singleton]
  refine ⟨by rw [hlen]; decide, fun h => ?_⟩
  have hfits := (appStarted_started.ready.storesWithinTwo_iff app_fits (by decide)).mp h
  rw [FitsEmpty, hlen, loggerEntryMaxPayload_eq] at hfits
  omega

end Cosmost.Bblog
