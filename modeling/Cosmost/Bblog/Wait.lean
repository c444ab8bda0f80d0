import Cosmost.Bblog.Invariant

/-!
# Can a flusher's wait succeed?

`flush_buffer` samples the index once and then waits until the word is what it expects of that index and of no holders.
If the sample was taken while no doomed reservation was outstanding on the buffer, and no record is taken on it
afterwards, then the expected word is there as soon as the last holder has released (`wait_can_end`). A reservation that
did not fit, rolled back after the sample, leaves the word at another value (`doomed_sample_never_matches`).
-/

namespace Cosmost.Bblog

open Cosmost.Lib

/-- The thread is between its `fetch_and_add` and its `fetch_and_sub` on the buffer at `a`. -/
def Pc.Holding (a : Nat) (x : Pc) : Prop := x.role.holders a ≠ 0

/-- The thread is in the compare-and-swap loop on the buffer at `a`. -/
def Pc.Waiting (a : Nat) : Pc → Prop
  | .cas _ ptr _ _ => ptr = a
  | _ => False

instance (a : Nat) (x : Pc) : Decidable (x.Holding a) := inferInstanceAs (Decidable (_ ≠ _))

instance (a : Nat) : ∀ x, Decidable (Pc.Waiting a x)
  | .cas _ ptr _ _ => inferInstanceAs (Decidable (ptr = a))
  | .idle | .load _ | .add _ _ | .copy _ _ _ | .release _ | .rollback _ _ | .loadFlush | .check _ _ | .alloc _ _
  | .fallback _ _ | .install _ _ _ | .discard _ _ | .readPid _ _ | .sample _ _ _ | .close _ _ _ | .write _ _
  | .free _ _ => isFalse not_false

section Wait

variable {τ : Type*} [Fintype τ] {A : Allocator} {e : Process} {c c' : Conf τ} {t : τ}

/-- The step at this point keeps what the flushers have sampled right: no record is taken on a buffer on which a thread
waits, and the index is not sampled while a doomed reservation is outstanding. -/
def Conf.SteadyAt (e : Process) (c : Conf τ) : Pc → Prop
  | .add m p => Fitting e m (c.state.mem p).pibr → ∀ u, ¬ (c.pc u).Waiting p
  | .sample _ ptr _ => (c.ledger ptr).doomed = 0
  | _ => True

instance (c : Conf τ) : ∀ x, Decidable (c.SteadyAt e x)
  | .add _ _ => inferInstanceAs (Decidable (_ → _))
  | .sample _ _ _ => inferInstanceAs (Decidable (_ = _))
  | .idle | .load _ | .copy _ _ _ | .release _ | .rollback _ _ | .loadFlush | .check _ _ | .alloc _ _ | .fallback _ _
  | .install _ _ _ | .discard _ _ | .readPid _ _ | .cas _ _ _ _ | .close _ _ _ | .write _ _ | .free _ _ =>
    isTrue trivial

/-- A sound move that keeps the samples right. -/
def Conf.Steady (e : Process) (c : Conf τ) (x : τ × Move) : Prop :=
  c.Sound x ∧ (x.2 = .run → c.SteadyAt e (c.pc x.1))

instance (c : Conf τ) (x : τ × Move) : Decidable (c.Steady e x) := inferInstanceAs (Decidable (_ ∧ _))

/-- What a waiting thread has sampled is where the records end. -/
def Conf.Sampled (e : Process) (c : Conf τ) : Prop :=
  ∀ t k a pid idx, c.pc t = .cas k a pid idx → idx = (prefixText e).length + textsLength (c.taken a)

variable [DecidableEq τ]

/-- **Steady steps keep the samples right.** -/
theorem Conf.Sampled.run (hw : c.Sampled e) (h : c.Inv e) (he : e.Fits) (hs : c.SoundAt (c.pc t))
    (hq : c.SteadyAt e (c.pc t)) : (c.run A e t).Sampled e := by
  cases hok : exec A e (c.pc t) c.state with
  | error x =>
    rw [run_error hok]
    exact hw
  | ok x =>
    obtain ⟨q, s⟩ := x
    rw [run_ok hok]
    intro u k a pid idx hu
    simp only at hu ⊢
    by_cases hut : u = t
    · -- the thread itself: it has just sampled, or waits on
      subst hut
      have hcas : q = .cas k a pid idx := by simpa using hu
      subst hcas
      rcases exec_cameFrom hok with ⟨hpc, -, hidx⟩ | hpc
      · have hread := h.read u
        rw [hpc] at hq hread ⊢
        obtain ⟨-, hlive, -, hclosers, -⟩ := h.flushed_live hread.1 (t := u) (by rw [hpc]; rfl)
        have hacc := h.ledger a hread.1
        have hroom := hacc.room hlive
        have hdoomed : (c.ledger a).doomed = 0 := hq
        have hword : pibrIdx (c.state.mem a).pibr = _ :=
          pibrIdx_of (hacc.word hlive hclosers) (hacc.page hlive) hacc.few
        rw [loggerEntryMaxPayload_eq] at hroom
        rw [hidx, hword, hdoomed, Nat.add_zero, Nat.mod_eq_of_lt (by omega)]
        rfl
      · rw [hpc]
        exact hw u k a pid idx hpc
    · -- another thread: nothing was taken on its buffer, and the buffer is not new
      have hpcu : c.pc u = .cas k a pid idx := by simpa [hut] using hu
      have hread := h.read u
      rw [hpcu] at hread
      have hidx := hw u k a pid idx hpcu
      rcases noteTaken_cases c.taken (c.pc t) q a with hsame | ⟨m, p, m', i, hpc, rfl, -⟩ | ⟨k', curr, _, _, hpc, rfl, -⟩
      · rw [hidx, hsame]
      · rw [hpc] at hs hq hok
        rcases h.exec_add (A := A) hs with ⟨x, herr⟩ | ⟨-, ⟨hfit, hex⟩ | ⟨-, hex⟩⟩
        · cases herr.symm.trans hok
        · cases hex.symm.trans hok
          exact absurd (by rw [hpcu]; exact rfl) (hq hfit u)
        · cases hex.symm.trans hok
      · rw [hpc] at hok
        obtain ⟨-, hlive, -⟩ := h.flushed_live hread.1 (t := u) (by rw [hpcu]; rfl)
        rcases h.globals.exec_alloc he A k' curr with ⟨n, hex⟩ | ⟨b, s', hf, hex⟩
        · cases hex.symm.trans hok
        · cases hex.symm.trans hok
          exact absurd (List.count_pos_iff.mp hlive) hf.fresh

theorem Conf.Sampled.step {x : τ × Move} (hw : c.Sampled e) (h : c.Inv e) (he : e.Fits) (hq : c.Steady e x)
    (hstep : c.step A e x = some c') : c'.Sampled e := by
  obtain ⟨t, mv⟩ := x
  rcases step_cases hstep with ⟨q, hcall, -, rfl⟩ | ⟨rfl, rfl⟩
  · intro u k a pid idx hu
    refine hw u k a pid idx (goto_pc ?_ hu)
    rcases hcall with rfl | ⟨m, rfl⟩ <;> simp
  · exact hw.run h he (hq.1 rfl) (hq.2 rfl)

/-- **A flusher's wait can succeed.** In every run of any number of threads whose moves are steady: when a thread waits in
`flush_buffer` and no other thread holds the buffer, the word of the buffer is the one it waits for. -/
theorem wait_can_end {τ : Type*} [Fintype τ] [DecidableEq τ] (A : Allocator) (e : Process) (he : e.Fits) (c : Conf τ)
    (hc : Reach (Conf.step A e) (Conf.Steady e) (Conf.Started A e) c) (t : τ) (k : Option Record) (a pid idx : Nat)
    (ht : c.pc t = .cas k a pid idx) (hu : ∀ u, u ≠ t → ¬ (c.pc u).Holding a) :
    (c.state.mem a).pibr = packBuffer a pid idx 0 := by
  obtain ⟨h, hw⟩ : c.Inv e ∧ c.Sampled e := by
    refine Reach.inv (I := fun c => c.Inv e ∧ c.Sampled e) (fun c hc => ⟨hc.inv he, ?_⟩) ?_ hc
    · obtain ⟨_, _, rfl⟩ := hc
      intro t k a pid idx ht
      cases ht
    · rintro c x c' ⟨h, hw⟩ hx hstep
      exact ⟨h.step he hx.1 hstep, hw.step h he hx hstep⟩
  have hread := h.read t
  rw [ht] at hread
  obtain ⟨ha, rfl, hlt, -⟩ := hread
  obtain ⟨-, hlive, -, hclosers, -⟩ := h.flushed_live ha (t := t) (by rw [ht]; rfl)
  have hacc := h.ledger a ha
  have hheld : (c.ledger a).holders = 0 := by
    refine total_eq_zero fun u => ?_
    by_cases hut : u = t
    · subst hut
      rw [Conf.roles, ht]
      rfl
    · exact not_not.mp (hu u hut)
  have hdoomed := hacc.short
  rw [hheld, Nat.mul_zero] at hdoomed
  apply BitVec.eq_of_toNat_eq
  rw [packBuffer_toNat he.pid (Or.inl (hacc.page hlive)) hlt (by decide), hw t k a _ idx ht]
  have hword := hacc.word hlive hclosers
  rw [hheld, Nat.le_zero.mp hdoomed, Nat.add_zero] at hword
  exact hword

end Wait

/-! ## A wait that succeeds, and one that cannot -/

/-- One thread is copying its record when the other samples the index; then it releases. -/
def heldSample (t u : Fin 2) : List (Fin 2 × Move) :=
  (u, .blog filler9) :: steps u 2 ++ (t, .flush) :: steps t 6 ++ steps u 2

/-- The flusher's compare-and-swap can succeed then. -/
theorem held_sample_ends : ∃ c : Conf (Fin 2),
    Reach (Conf.step twoPages app) (Conf.Steady app) (Conf.Started twoPages app) c ∧
    c.pc 0 = .cas none 4096 7 41 ∧ (c.state.mem 4096).pibr = packBuffer 4096 7 41 0 := by
  have hrun : (runAll (Conf.step twoPages app) (Conf.Steady app) (appThreads 2) (heldSample 0 1)).any
      (fun c => c.pc 0 = .cas none 4096 7 41 ∧ ∀ u, u ≠ 0 → ¬ (c.pc u).Holding 4096) = true := by decide +kernel
  obtain ⟨c, hc, hp⟩ := Reach.of_runAll (appThreads_started 2) _ _ hrun
  obtain ⟨ht, hu⟩ := of_decide_eq_true hp
  exact ⟨c, hc, ht, wait_can_end twoPages app app_fits c hc 0 none 4096 7 41 ht hu⟩

/-- A record of 10 bytes is stored, and one of 4010 bytes does not fit behind it; the flusher samples the index before
that reservation is rolled back. -/
def doomedSample (t u : Fin 2) : List (Fin 2 × Move) :=
  (t, .blog filler9) :: steps t 4 ++ (u, .blog filler4009) :: steps u 2 ++
    (t, .flush) :: steps t 6 ++ steps u 1

/-- **A wait that cannot succeed**: the moves are sound, and nobody holds the buffer. -/
theorem doomed_sample_never_matches : ∃ c : Conf (Fin 2),
    Reach (Conf.step twoPages app) Conf.Sound (Conf.Started twoPages app) c ∧
    ∃ t k a pid idx, c.pc t = .cas k a pid idx ∧ (∀ u, u ≠ t → ¬ (c.pc u).Holding a) ∧
      (c.state.mem a).pibr ≠ packBuffer a pid idx 0 := by
  have hrun : (runAll (Conf.step twoPages app) Conf.Sound (appThreads 2) (doomedSample 0 1)).any
      (fun c => c.pc 0 = .cas none 4096 7 4051 ∧ (∀ u, u ≠ 0 → ¬ (c.pc u).Holding 4096) ∧
        (c.state.mem 4096).pibr ≠ packBuffer 4096 7 4051 0) = true := by decide +kernel
  obtain ⟨c, hc, hp⟩ := Reach.of_runAll (appThreads_started 2) _ _ hrun
  obtain ⟨ht, hu, hw⟩ := of_decide_eq_true hp
  exact ⟨c, hc, 0, none, 4096, 7, 4051, ht, hu, hw⟩

end Cosmost.Bblog
