import Cosmost.Bblog.Loop
import Cosmost.Bblog.Steps

/-!
# The account of every buffer is true

From the configuration that `bblog_init` leaves, with a buffer or without one (`Conf.Started.inv`), sound moves keep
`Conf.Inv` (`Conf.Inv.step`): in every configuration that they reach the word of each buffer is its account.
-/

namespace Cosmost.Bblog

open Cosmost.Lib

section Invariant

variable {τ : Type*} [Fintype τ] {A : Allocator} {e : Process} {c c' : Conf τ} {t : τ}

/-- A step leaves the prefix as it is, or makes it that of the process. -/
theorem Globals.exec {x q : Pc} {s s' : State} (h : Globals e s) (he : e.Fits) (hok : exec A e x s = .ok (q, s')) :
    Globals e s' := by
  cases x with
  | add m p =>
    obtain ⟨rfl, -⟩ := exec_add_ok hok
    exact ⟨⟨h.len, h.short⟩, h.own, h.used⟩
  | copy m ptr idx => cases hok; exact ⟨⟨h.len, h.short⟩, h.own, h.used⟩
  | release ptr =>
    obtain ⟨rfl, -⟩ := exec_release_ok hok
    exact ⟨⟨h.len, h.short⟩, h.own, h.used⟩
  | rollback m ptr =>
    obtain ⟨rfl, -⟩ := exec_rollback_ok hok
    exact ⟨⟨h.len, h.short⟩, h.own, h.used⟩
  | alloc k curr =>
    rcases h.exec_alloc he A k curr with ⟨n, hn⟩ | ⟨a, s₁, hf, hf'⟩
    · cases hn.symm.trans hok
      exact ⟨⟨h.len, h.short⟩, h.own, h.used⟩
    · cases hf'.symm.trans hok
      have hpre := hf.prefixBuf.trans h.freshPrefix_eq
      have hlen := hf.prefixLen.trans (congrArg List.length h.freshPrefix_eq)
      exact ⟨⟨by rw [hpre, hlen], by rw [hlen]; exact he.short⟩, fun _ => hpre, fun _ => hf.procid⟩
  | install k curr new =>
    simp only [Bblog.exec] at hok
    split_ifs at hok <;> cases hok <;> exact ⟨⟨h.len, h.short⟩, h.own, h.used⟩
  | discard k new =>
    cases hok
    exact ⟨⟨h.len, h.short⟩, h.own, fun hne => h.used fun hnil => hne (by simp [hnil])⟩
  | readPid k ptr =>
    simp only [Bblog.exec] at hok
    split_ifs at hok <;> cases hok <;> exact h
  | cas k ptr pid idx =>
    simp only [Bblog.exec] at hok
    split_ifs at hok <;> cases hok <;> exact ⟨⟨h.len, h.short⟩, h.own, h.used⟩
  | close k ptr idx =>
    simp only [Bblog.exec] at hok
    split_ifs at hok
    cases hok
    exact ⟨⟨h.len, h.short⟩, h.own, h.used⟩
  | free k ptr =>
    cases hok
    exact ⟨⟨h.len, h.short⟩, h.own, fun hne => h.used fun hnil => hne (by simp [hnil])⟩
  | _ => cases hok; exact ⟨⟨h.len, h.short⟩, h.own, h.used⟩

omit [Fintype τ] in
/-- What a thread has read is the pid of the process, and an index behind the prefix. -/
theorem read_exec {q : Pc} {s : State} (hg : Globals e c.state) (hread : (c.pc t).Read e)
    (hused : ∀ ptr, ptr ≠ 0 → (c.pc t).role = .flusher ptr → c.state.procid = e.pid)
    (hok : exec A e (c.pc t) c.state = .ok (q, s)) : q.Read e := by
  have hfrom := exec_cameFrom hok
  cases q with
  | sample k ptr pid =>
    obtain ⟨hpc, hptr, rfl⟩ := hfrom
    exact ⟨hptr, hused ptr hptr (by rw [hpc]; rfl)⟩
  | cas k ptr pid idx =>
    rcases hfrom with ⟨hpc, hidx, rfl⟩ | hpc
    · rw [hpc] at hread
      obtain ⟨hptr, rfl⟩ := hread
      refine ⟨hptr, rfl, ?_, ?_⟩
      · rw [pibrIdx_eq]
        exact Nat.mod_lt _ (by decide)
      · rw [← hg.prefixLen_eq (hused ptr hptr (by rw [hpc]; rfl))]
        exact Ne.symm hidx
    · rwa [hpc] at hread
  | _ => trivial

theorem Conf.Inv.read_exec (h : c.Inv e) {q : Pc} {s : State} (hok : exec A e (c.pc t) c.state = .ok (q, s)) :
    q.Read e := by
  refine Bblog.read_exec h.globals (h.read t) (fun ptr hptr hrole => ?_) hok
  exact h.globals.used (List.ne_nil_of_mem (List.count_pos_iff.mp (h.flushed_live hptr hrole).2.1))

/-! ## The first configuration -/

/-- With no thread in the logger the account is what the globals say. -/
theorem ledger_idle (s : State) (a : Nat) :
    (⟨s, fun _ => .idle, false, fun _ => [], []⟩ : Conf τ).ledger a =
      ⟨s.live.count a, pointsTo s.procPibr a, (s.mem a).pibr, 0, 0, 0, 0, 0, 0⟩ := by
  have hroles : Conf.roles (⟨s, fun _ => .idle, false, fun _ => [], []⟩ : Conf τ) = fun _ => .outside := rfl
  simp only [Conf.ledger, hroles, textsLength_nil, Ledger.mk.injEq, true_and]
  exact ⟨total_eq_zero fun _ => rfl, total_eq_zero fun _ => rfl, total_eq_zero fun _ => rfl,
    total_eq_zero fun _ => rfl, total_eq_zero fun _ => rfl⟩

/-- `bblog_init` leaves a current buffer, or none. -/
theorem Conf.Started.inv (he : e.Fits) (h : c.Started A e) : c.Inv e := by
  obtain ⟨cntr, mem, rfl⟩ := h
  have hpre := prefixOk_init cntr mem
  cases hA : A.memalign 0 [] with
  | none =>
    have hinit : bblogInit A e (.init cntr mem) = { State.init cntr mem with allocs := 1 } := by
      simp [bblogInit, swapBuffers, allocBuffer, State.init, hA]
    rw [hinit]
    refine ⟨⟨⟨hpre.len, hpre.short⟩, fun hpid => absurd hpid (Nat.ne_of_lt e.pos), fun hne => absurd rfl hne⟩,
      fun a ha => ?_, fun t => trivial⟩
    rw [ledger_idle]
    convert Ledger.Ok.nobody (mem a).pibr using 1
    simp [State.init, pointsTo_of_ne (Ne.symm ha)]
  | some x =>
    have hserved : (A.memalign (State.init cntr mem).allocs (State.init cntr mem).live).isSome := by
      rw [State.init, hA]
      rfl
    obtain ⟨b, s, heq, hf⟩ := bblogInit_fresh he hpre rfl hserved
    have htext := hf.prefixBuf.trans (freshPrefix_init e cntr mem)
    have hlen := hf.prefixLen.trans (congrArg List.length (freshPrefix_init e cntr mem))
    rw [heq]
    refine ⟨⟨⟨by rw [htext, hlen], by rw [hlen]; exact he.short⟩, fun _ => htext, fun _ => hf.procid⟩,
      fun a ha => ?_, fun t => trivial⟩
    rw [ledger_idle]
    by_cases hab : b = a
    · -- the buffer was created and installed
      subst hab
      have hcreated := (Ledger.Ok.nobody (s.mem b).pibr).create he.pid he.short rfl hf.page
      have hinstalled := hcreated.step he.pid he.short (.install Nat.one_pos) (Nat.zero_le _)
      convert hinstalled using 1
      simp [hf.live, State.init, hf.word, hlen]
    · convert Ledger.Ok.nobody (s.mem a).pibr using 1
      simp [hf.live, State.init, hab, pointsTo_of_ne hab]

/-! ## Moves -/

variable [DecidableEq τ]

theorem Conf.Inv.run (h : c.Inv e) (he : e.Fits) (hs : c.SoundAt (c.pc t)) : (c.run A e t).Inv e := by
  have hledger : ∀ a, a ≠ 0 → ((c.run A e t).ledger a).Ok e.pid (prefixText e).length a := fun a ha =>
    (h.ledger a ha).step he.pid he.short (h.ledger_step he hs ha) (doomed_le _ a)
  cases hok : exec A e (c.pc t) c.state with
  | error x =>
    rw [run_error hok] at hledger ⊢
    exact ⟨h.globals, hledger, h.read⟩
  | ok x =>
    obtain ⟨q, s⟩ := x
    rw [run_ok hok] at hledger ⊢
    refine ⟨h.globals.exec he hok, hledger, fun u => ?_⟩
    by_cases hu : u = t
    · subst hu
      simpa using h.read_exec hok
    · simpa [hu] using h.read u

/-- **Sound moves keep the invariant.** -/
theorem Conf.Inv.step {x : τ × Move} (h : c.Inv e) (he : e.Fits) (hs : c.Sound x) (hstep : c.step A e x = some c') :
    c'.Inv e := by
  obtain ⟨t, mv⟩ := x
  rcases step_cases hstep with ⟨q, hq, hidle, rfl⟩ | ⟨rfl, rfl⟩
  · have hrole : q.role = (c.pc t).role := by
      rcases hq with rfl | ⟨m, rfl⟩ <;> rw [hidle] <;> rfl
    refine ⟨h.globals, fun a ha => ?_, fun u => ?_⟩
    · rw [Conf.goto, ledger_same _ _ hrole rfl rfl (fun _ => rfl)]
      exact h.ledger a ha
    · by_cases hu : u = t
      · subst hu
        rcases hq with rfl | ⟨m, rfl⟩ <;> simp [Conf.goto, Pc.Read]
      · simpa [Conf.goto, hu] using h.read u
  · exact h.run he (hs rfl)

end Invariant

/-! ## The threads of a process -/

/-- A record of `n + 1` bytes. -/
def filler (n : Nat) (h : n + 1 < bufferSize) : Record :=
  ⟨List.replicate n 'x', fun hn => absurd (List.eq_of_mem_replicate hn) (by decide), by rwa [List.length_replicate]⟩

/-- A record of 5 bytes. -/
def filler4 : Record := filler 4 (by decide)

/-- A record of 10 bytes. -/
def filler9 : Record := filler 9 (by decide)

/-- A record that fits only an empty buffer. -/
def filler4009 : Record := filler 4009 (by decide)

/-- The threads of a process that has just started. -/
def appThreads (n : Nat) : Conf (Fin n) := ⟨appStarted, fun _ => .idle, false, fun _ => [], []⟩

theorem appThreads_started (n : Nat) : (appThreads n).Started twoPages app := ⟨0, _, rfl⟩

/-- The thread `t` takes `n` steps. -/
def steps {n : Nat} (t : Fin n) (k : Nat) : List (Fin n × Move) := List.replicate k (t, .run)

end Cosmost.Bblog
