import Cosmost.Bblog.Invariant

/-!
# Only live buffers are updated

A thread reads `proc_pibr`, and then increments the word that it found there. Nothing keeps the buffer in between: the
reference count that would is in the word. So another thread can swap, flush and free the buffer first, and the
increment goes to freed memory (`freed_buffer_updated`).

In every run in which no thread is between these two steps on a buffer when that is freed, `proc_pibr` is not null when
it is read, a thread without memory for a new buffer finds the old one still current, and fewer than 4096 reservations
are pending on a buffer, only live buffers are updated, and none is freed twice (`only_live_updated`).
-/

namespace Cosmost.Bblog

open Cosmost.Lib

/-- The buffer that the step at this point updates: `fetch_and_add`, `fetch_and_sub`, `memcpy`, compare-and-swap. -/
def Pc.updates : Pc → Option Nat
  | .add _ p => some p
  | .copy _ ptr _ | .release ptr | .rollback _ ptr | .cas _ ptr _ _ => some ptr
  | _ => none

/-- The buffer that the step at this point frees. -/
def Pc.frees : Pc → Option Nat
  | .discard _ new => some new
  | .free _ ptr => some ptr
  | _ => none

/-- The thread has read the pointer to the buffer and is about to increment its word. -/
def Pc.Adding (a : Nat) : Pc → Prop
  | .add _ p => p = a
  | _ => False

instance (a : Nat) : ∀ x, Decidable (Pc.Adding a x)
  | .add _ p => inferInstanceAs (Decidable (p = a))
  | .idle | .load _ | .copy _ _ _ | .release _ | .rollback _ _ | .loadFlush | .check _ _ | .alloc _ _ | .fallback _ _
  | .install _ _ _ | .discard _ _ | .readPid _ _ | .sample _ _ _ | .cas _ _ _ _ | .close _ _ _ | .write _ _
  | .free _ _ => isFalse not_false

/-- The buffer that a thread holds, flushes, closes or has made is at an address. -/
def Pc.Nonnull : Pc → Prop
  | .copy _ ptr _ | .release ptr | .rollback _ ptr => ptr ≠ 0
  | .sample _ ptr _ | .cas _ ptr _ _ | .close _ ptr _ | .write _ ptr | .free _ ptr => ptr ≠ 0
  | .install _ _ new | .discard _ new => new ≠ 0
  | _ => True

theorem nonnull_next (k : Option Record) : (Pc.next k).Nonnull := by
  cases k <;> trivial

theorem nonnull_swapped (k : Option Record) (curr : Nat) : (Pc.swapped k curr).Nonnull := by
  unfold Pc.swapped
  split_ifs
  · trivial
  · exact nonnull_next k

/-- A step goes on at an address that it found not to be null. -/
theorem exec_nonnull {A : Allocator} {e : Process} {x q : Pc} {s s' : State} (hok : exec A e x s = .ok (q, s'))
    (hx : x.Nonnull) : q.Nonnull := by
  cases x with
  | add m p =>
    have hptr : pibrPtr (s.mem p).pibr ≠ 0 := by
      intro hptr
      by_cases hp : p = 0 <;> simp [exec, fetchAdd, hp, hptr, bind, Except.bind] at hok
    obtain ⟨-, rfl | rfl⟩ := exec_add_ok hok <;> exact hptr
  | release ptr => obtain ⟨-, rfl⟩ := exec_release_ok hok; trivial
  | rollback m ptr => obtain ⟨-, rfl⟩ := exec_rollback_ok hok; trivial
  | check k curr =>
    cases hok
    split_ifs
    · trivial
    · exact nonnull_next k
  | alloc k curr =>
    cases hok
    split_ifs with hnew
    · trivial
    · exact hnew
  | fallback k curr => cases hok; exact nonnull_swapped k curr
  | install k curr new =>
    simp only [exec] at hok
    split_ifs at hok <;> cases hok
    · exact nonnull_swapped k curr
    · exact hx
  | discard k new => cases hok; exact nonnull_next k
  | readPid k ptr =>
    simp only [exec] at hok
    split_ifs at hok with hptr hpid <;> cases hok
    · exact nonnull_next k
    · exact hptr
    · exact nonnull_next k
  | sample k ptr pid =>
    simp only [exec] at hok
    split_ifs at hok <;> cases hok
    · exact nonnull_next k
    · exact hx
  | cas k ptr pid idx =>
    simp only [exec] at hok
    split_ifs at hok <;> cases hok <;> exact hx
  | close k ptr idx =>
    simp only [exec] at hok
    split_ifs at hok
    cases hok
    exact hx
  | copy m ptr idx => cases hok; exact hx
  | write k ptr => cases hok; exact hx
  | free k ptr => cases hok; exact nonnull_next k
  | _ => cases hok; trivial

section Live

variable {τ : Type*} [Fintype τ] {A : Allocator} {e : Process} {c c' : Conf τ} {t : τ}

/-- The next step of the thread updates, or frees, a live buffer if any. -/
def Conf.UsesLive (c : Conf τ) (t : τ) : Prop :=
  (∀ a, (c.pc t).updates = some a → a ∈ c.state.live) ∧ ∀ a, (c.pc t).frees = some a → a ∈ c.state.live

/-- The step at this point leaves nobody with a stale pointer: `proc_pibr` is not null when it is read, no thread is about
to increment the word of the buffer that is freed, the buffer to flush after a failed `memalign` is still current, and
few reservations are pending. -/
def Conf.CarefulAt (c : Conf τ) : Pc → Prop
  | .load _ => c.state.procPibr ≠ 0
  | .add _ p => (c.ledger p).holders + 1 < 2 ^ 12
  | .fallback _ curr => curr = 0 ∨ c.state.procPibr = curr
  | .free _ ptr => ∀ u, ¬ (c.pc u).Adding ptr
  | _ => True

instance (c : Conf τ) : ∀ x, Decidable (c.CarefulAt x)
  | .load _ => inferInstanceAs (Decidable (_ ≠ _))
  | .add _ _ => inferInstanceAs (Decidable (_ < _))
  | .fallback _ _ => inferInstanceAs (Decidable (_ ∨ _))
  | .free _ _ => inferInstanceAs (Decidable (∀ _, _))
  | .idle | .copy _ _ _ | .release _ | .rollback _ _ | .loadFlush | .check _ _ | .alloc _ _ | .install _ _ _
  | .discard _ _ | .readPid _ _ | .sample _ _ _ | .cas _ _ _ _ | .close _ _ _ | .write _ _ => isTrue trivial

/-- A careful move. -/
def Conf.Careful (c : Conf τ) (x : τ × Move) : Prop := x.2 = .run → c.CarefulAt (c.pc x.1)

instance (c : Conf τ) (x : τ × Move) : Decidable (c.Careful x) := inferInstanceAs (Decidable (_ → _))

/-- A thread that is about to increment a word has a live buffer, and none that another thread has just made. -/
structure Conf.Anchored (c : Conf τ) : Prop where
  adding : ∀ t m p, c.pc t = .add m p → p ≠ 0 ∧ 0 < (c.ledger p).live ∧ (c.ledger p).makers = 0
  nonnull : ∀ t, (c.pc t).Nonnull

/-- A careful move of anchored threads is sound. -/
theorem Conf.Anchored.sound (ha : c.Anchored) (h : c.Inv e) (hc : c.CarefulAt (c.pc t)) : c.SoundAt (c.pc t) := by
  cases hpc : c.pc t with
  | add m p =>
    rw [hpc] at hc
    obtain ⟨-, hlive, hmakers⟩ := ha.adding t m p hpc
    exact Or.inr ⟨hlive, hmakers, hc⟩
  | fallback k curr =>
    rw [hpc] at hc
    by_cases hcurr : curr = 0
    · exact Or.inl hcurr
    · obtain rfl := hc.resolve_left hcurr
      exact Or.inr (h.current hcurr)
  | _ => trivial

/-- A step leaves a buffer live unless it is the step that frees it. -/
theorem exec_live {x q : Pc} {s s' : State} {a : Nat} (hok : exec A e x s = .ok (q, s')) (ha : a ∈ s.live)
    (hx : x.frees ≠ some a) (h : Globals e s) (he : e.Fits) : a ∈ s'.live := by
  have herase : ∀ p, p ≠ a → a ∈ s.live.erase p := fun p hp => (List.mem_erase_of_ne (Ne.symm hp)).mpr ha
  cases x with
  | add m p =>
    obtain ⟨rfl, -⟩ := exec_add_ok hok
    exact ha
  | release ptr =>
    obtain ⟨rfl, -⟩ := exec_release_ok hok
    exact ha
  | rollback m ptr =>
    obtain ⟨rfl, -⟩ := exec_rollback_ok hok
    exact ha
  | alloc k curr =>
    rcases h.exec_alloc he A k curr with ⟨n, hn⟩ | ⟨b, s₁, hf, hf'⟩
    · cases hn.symm.trans hok
      exact ha
    · cases hf'.symm.trans hok
      rw [hf.live]
      exact List.mem_cons_of_mem _ ha
  | install k curr new =>
    simp only [exec] at hok
    split_ifs at hok <;> cases hok <;> exact ha
  | discard k new =>
    cases hok
    exact herase new fun h => hx (congrArg some h)
  | readPid k ptr =>
    simp only [exec] at hok
    split_ifs at hok <;> cases hok <;> exact ha
  | cas k ptr pid idx =>
    simp only [exec] at hok
    split_ifs at hok <;> cases hok <;> exact ha
  | close k ptr idx =>
    simp only [exec] at hok
    split_ifs at hok
    cases hok
    exact ha
  | free k ptr =>
    cases hok
    exact herase ptr fun h => hx (congrArg some h)
  | _ => cases hok; exact ha

/-- What a thread updates or frees is live: it holds the buffer, flushes it, has made it or closes it. -/
theorem Conf.Anchored.usesLive (ha : c.Anchored) (h : c.Inv e) (t : τ) : c.UsesLive t := by
  have hlive : ∀ a, 0 < (c.ledger a).live → a ∈ c.state.live := fun a hpos => List.count_pos_iff.mp hpos
  have hnonnull := ha.nonnull t
  have hheld : ∀ a n, a ≠ 0 → (c.pc t).role = .holder a n → a ∈ c.state.live := by
    intro a n ha0 hrole
    have hle := role_le (Role.holders a) c t
    rw [hrole, Role.holders, if_pos rfl] at hle
    exact hlive a ((h.ledger a ha0).held hle).1
  constructor
  · intro a hup
    cases hpc : c.pc t with
    | add m p =>
      rw [hpc] at hup
      cases hup
      exact hlive _ (ha.adding t m a hpc).2.1
    | copy m ptr idx =>
      rw [hpc] at hup hnonnull
      cases hup
      exact hheld _ _ hnonnull (by rw [hpc]; rfl)
    | release ptr =>
      rw [hpc] at hup hnonnull
      cases hup
      exact hheld _ _ hnonnull (by rw [hpc]; rfl)
    | rollback m ptr =>
      rw [hpc] at hup hnonnull
      cases hup
      exact hheld _ _ hnonnull (by rw [hpc]; rfl)
    | cas k ptr pid idx =>
      rw [hpc] at hup hnonnull
      cases hup
      exact hlive _ (h.flushed_live hnonnull (by rw [hpc]; rfl)).2.1
    | _ =>
      rw [hpc] at hup
      cases hup
  · intro a hfrees
    have hone : ∀ a, a ≠ 0 → 0 < (c.ledger a).makers + (c.ledger a).closers → a ∈ c.state.live := fun a ha0 hpos =>
      hlive a (by have := (h.ledger a ha0).one; omega)
    cases hpc : c.pc t with
    | discard k new =>
      rw [hpc] at hfrees hnonnull
      cases hfrees
      have hle : (c.pc t).role.makers a ≤ (c.ledger a).makers := role_le (Role.makers a) c t
      rw [hpc, Pc.role, Role.makers, if_pos rfl] at hle
      exact hone _ hnonnull (by omega)
    | free k ptr =>
      rw [hpc] at hfrees hnonnull
      cases hfrees
      have hle : (c.pc t).role.closers a ≤ (c.ledger a).closers := role_le (Role.closers a) c t
      rw [hpc, Pc.role, Role.closers, if_pos rfl] at hle
      exact hone _ hnonnull (by omega)
    | _ =>
      rw [hpc] at hfrees
      cases hfrees

variable [DecidableEq τ]

theorem Conf.Anchored.run (ha : c.Anchored) (h : c.Inv e) (he : e.Fits) (hc : c.CarefulAt (c.pc t)) :
    (c.run A e t).Anchored := by
  have hsound := ha.sound h hc
  cases hok : exec A e (c.pc t) c.state with
  | error x =>
    rw [run_error hok]
    exact ⟨ha.adding, ha.nonnull⟩
  | ok x =>
    obtain ⟨q, s⟩ := x
    refine ⟨fun u m p hu => ?_, fun u => ?_⟩
    · by_cases hut : u = t
      · -- the thread has just read the pointer to the current buffer
        subst hut
        have hq : q = .add m p := by
          rw [run_ok hok] at hu
          simpa using hu
        subst hq
        obtain ⟨hpc, rfl⟩ := exec_cameFrom hok
        rw [hpc] at hc
        have hstep : exec A e (c.pc u) c.state = .ok (.add m c.state.procPibr, c.state) := by rw [hpc]; rfl
        have hledger : (c.run A e u).ledger c.state.procPibr = c.ledger c.state.procPibr := by
          rw [run_ok hstep, show noteTaken c.taken (c.pc u) (.add m c.state.procPibr) = c.taken by rw [hpc]; rfl]
          exact ledger_same _ _ (by rw [hpc]; rfl) rfl rfl (fun _ => rfl) _
        obtain ⟨hlive, -, hmakers, -⟩ := h.current hc
        rw [hledger]
        exact ⟨hc, hlive, hmakers⟩
      · -- its buffer is not freed, and nobody makes a live one
        have hpcu : c.pc u = .add m p := by
          rw [run_ok hok] at hu
          simpa [hut] using hu
        obtain ⟨hp, hlive, hmakers⟩ := ha.adding u m p hpcu
        have hfrees : (c.pc t).frees ≠ some p := by
          intro hf
          cases hpc : c.pc t with
          | discard k new =>
            rw [hpc] at hf
            cases hf
            have hle : (c.pc t).role.makers p ≤ (c.ledger p).makers := role_le (Role.makers p) c t
            rw [hpc, Pc.role, Role.makers, if_pos rfl] at hle
            omega
          | free k ptr =>
            rw [hpc] at hf hc
            cases hf
            exact hc u (by rw [hpcu]; exact rfl)
          | _ =>
            rw [hpc] at hf
            cases hf
        refine ⟨hp, ?_, (h.ledger_step he hsound hp).makers_eq_zero hlive hmakers⟩
        rw [run_ok hok]
        exact List.count_pos_iff.mpr (exec_live hok (List.count_pos_iff.mp hlive) hfrees h.globals he)
    · rw [run_ok hok]
      by_cases hut : u = t
      · subst hut
        simpa using exec_nonnull hok (ha.nonnull u)
      · simpa [hut] using ha.nonnull u

theorem Conf.Anchored.step {x : τ × Move} (ha : c.Anchored) (h : c.Inv e) (he : e.Fits) (hc : c.Careful x)
    (hstep : c.step A e x = some c') : c'.Anchored ∧ c'.Inv e := by
  obtain ⟨t, mv⟩ := x
  rcases step_cases hstep with ⟨q, hcall, hidle, rfl⟩ | ⟨rfl, rfl⟩
  · have hinv := h.step he (fun _ => by rw [hidle]; trivial) hstep
    have hrole : q.role = (c.pc t).role := by
      rcases hcall with rfl | ⟨m, rfl⟩ <;> rw [hidle] <;> rfl
    have hledger : ∀ a, (c.goto t q).ledger a = c.ledger a := ledger_same _ _ hrole rfl rfl fun _ => rfl
    refine ⟨⟨fun u m p hu => ?_, fun u => ?_⟩, hinv⟩
    · rw [hledger]
      refine ha.adding u m p (goto_pc ?_ hu)
      rcases hcall with rfl | ⟨m', rfl⟩ <;> simp
    · by_cases hut : u = t
      · subst hut
        rcases hcall with rfl | ⟨m, rfl⟩ <;> simp [Conf.goto, Pc.Nonnull]
      · simpa [Conf.goto, hut] using ha.nonnull u
  · exact ⟨ha.run h he (hc rfl), h.run he (ha.sound h (hc rfl))⟩

/-- **Only live buffers are updated.** In every run of any number of threads whose moves are careful: what the next step
of a thread updates or frees is live. -/
theorem only_live_updated {τ : Type*} [Fintype τ] [DecidableEq τ] (A : Allocator) (e : Process) (he : e.Fits) (c : Conf τ)
    (hc : Reach (Conf.step A e) Conf.Careful (Conf.Started A e) c) (t : τ) : c.UsesLive t := by
  obtain ⟨ha, h⟩ : c.Anchored ∧ c.Inv e := by
    refine Reach.inv (I := fun c => c.Anchored ∧ c.Inv e) (fun c hc => ⟨?_, hc.inv he⟩)
      (fun c x c' h hx hstep => h.1.step h.2 he hx hstep) hc
    obtain ⟨_, _, rfl⟩ := hc
    exact ⟨fun t m p ht => Pc.noConfusion ht, fun t => trivial⟩
  exact ha.usesLive h t

end Live

/-! ## A live buffer, and one that was freed -/

/-- One thread has stored a record and flushes, the other has reserved. -/
def flushBehind (t u : Fin 2) : List (Fin 2 × Move) :=
  (u, .blog filler4) :: steps u 4 ++ (t, .blog filler9) :: steps t 2 ++
    (u, .flush) :: steps u 6

/-- Both have a live buffer. -/
theorem flush_behind_live : ∃ c : Conf (Fin 2),
    Reach (Conf.step twoPages app) Conf.Careful (Conf.Started twoPages app) c ∧
    c.pc 0 = .copy (filler 9 (by decide)) 4096 36 ∧ c.UsesLive 0 ∧ c.UsesLive 1 := by
  have hrun : (runAll (Conf.step twoPages app) Conf.Careful (appThreads 2) (flushBehind 0 1)).any
      (fun c => c.pc 0 = .copy (filler 9 (by decide)) 4096 36) = true := by decide +kernel
  obtain ⟨c, hc, hp⟩ := Reach.of_runAll (appThreads_started 2) _ _ hrun
  exact ⟨c, hc, of_decide_eq_true hp, only_live_updated twoPages app app_fits c hc 0,
    only_live_updated twoPages app app_fits c hc 1⟩

/-- One thread has read the pointer; then the other stores a record and flushes. -/
def flushBetween (t u : Fin 2) : List (Fin 2 × Move) :=
  (t, .blog filler9) :: steps t 1 ++ (u, .blog filler4) :: steps u 4 ++
    (u, .flush) :: steps u 10

/-- **A freed buffer is updated.** -/
theorem freed_buffer_updated : ∃ c : Conf (Fin 2),
    Reach (Conf.step twoPages app) (fun _ _ => True) (Conf.Started twoPages app) c ∧
    ∃ t, (c.step twoPages app (t, .run)).isSome ∧ ¬ c.UsesLive t := by
  have hrun : (runAll (Conf.step twoPages app) (fun _ _ => True) (appThreads 2) (flushBetween 0 1)).any
      (fun c => c.pc 0 = .add (filler 9 (by decide)) 4096 ∧ 4096 ∉ c.state.live ∧
        (c.step twoPages app (0, .run)).isSome) = true := by decide +kernel
  obtain ⟨c, hc, hp⟩ := Reach.of_runAll (appThreads_started 2) _ _ hrun
  obtain ⟨hpc, hfreed, hstep⟩ := of_decide_eq_true hp
  refine ⟨c, hc, 0, hstep, fun h => hfreed (h.1 4096 ?_)⟩
  rw [hpc]
  rfl

end Cosmost.Bblog
