import Cosmost.Bblog.Ledger
import Cosmost.Bblog.Threads

/-!
# Every buffer keeps its account

`Conf.ledger c a` is the account of the buffer at `a` in the configuration `c`. A move of a thread is, for each buffer, a
step in its life (`Conf.Inv.ledger_step`), as long as the move is `Sound`: no `fetch_and_add` goes to memory that was freed or
to a block that another thread has only just allocated, fewer than 4096 reservations are pending on a buffer, and a thread
whose `memalign` failed flushes a buffer only if it is allocated and no other thread is in charge of it. So in every
configuration that sound moves reach, the word of each buffer is its account (`Conf.Inv.step`).
-/

namespace Cosmost.Bblog

open Cosmost.Lib

/-- What a thread is to the buffers, by the point it is at. -/
def Pc.role : Pc → Role
  | .copy _ ptr _ => .holder ptr 0
  | .release ptr => .holder ptr 0
  | .rollback m ptr => .holder ptr m.text.length
  | .readPid _ ptr => .flusher ptr
  | .sample _ ptr _ => .flusher ptr
  | .cas _ ptr _ _ => .flusher ptr
  | .install _ _ new => .maker new
  | .discard _ new => .maker new
  | .close _ ptr _ => .closer ptr
  | .write _ ptr => .closer ptr
  | .free _ ptr => .closer ptr
  | _ => .outside

attribute [simp] Role.holders Role.doomed Role.flushers Role.makers Role.closers

theorem role_next (k : Option Record) : (Pc.next k).role = .outside := by
  cases k <;> rfl

theorem length_text_lt (m : Record) : m.text.length < bufferSize := by
  have := m.short
  simpa [Record.text] using this

/-- The bytes of some records. -/
def textsLength (ms : List Record) : Nat := (ms.map Record.text).flatten.length

@[simp] theorem textsLength_nil : textsLength [] = 0 := rfl

@[simp] theorem textsLength_concat (ms : List Record) (m : Record) :
    textsLength (ms ++ [m]) = textsLength ms + m.text.length := by
  simp [textsLength]

/-- `1` if the pointer `p` is that of the buffer at `a`. -/
def pointsTo (p a : Nat) : Nat := if p = a then 1 else 0

@[simp] theorem pointsTo_self (a : Nat) : pointsTo a a = 1 := if_pos rfl

theorem pointsTo_of_ne {p a : Nat} (h : p ≠ a) : pointsTo p a = 0 := if_neg h

section Conf

variable {τ : Type*} [Fintype τ]

/-- The roles of the threads. -/
def Conf.roles (c : Conf τ) (t : τ) : Role := (c.pc t).role

/-- The account of the buffer at `a`. -/
def Conf.ledger (c : Conf τ) (a : Nat) : Ledger where
  live := c.state.live.count a
  current := pointsTo c.state.procPibr a
  word := (c.state.mem a).pibr
  stored := textsLength (c.taken a)
  holders := total (Role.holders a) c.roles
  doomed := total (Role.doomed a) c.roles
  flushers := total (Role.flushers a) c.roles
  makers := total (Role.makers a) c.roles
  closers := total (Role.closers a) c.roles

/-- The step at this point is sound: a `fetch_and_add` goes to a buffer that is allocated and not private, with few
reservations pending; after a failed `memalign` a thread flushes only a buffer that is allocated and in no other
thread's charge. -/
def Conf.SoundAt (c : Conf τ) : Pc → Prop
  | .add _ p => p = 0 ∨ 0 < (c.ledger p).live ∧ (c.ledger p).makers = 0 ∧ (c.ledger p).holders + 1 < 2 ^ 12
  | .fallback _ curr => curr = 0 ∨ 0 < (c.ledger curr).live ∧ (c.ledger curr).flushers = 0 ∧
      (c.ledger curr).makers = 0 ∧ (c.ledger curr).closers = 0
  | _ => True

instance (c : Conf τ) : ∀ p, Decidable (c.SoundAt p)
  | .add _ _ | .fallback _ _ => inferInstanceAs (Decidable (_ ∨ _))
  | .idle | .load _ | .copy _ _ _ | .release _ | .rollback _ _ | .loadFlush | .check _ _ | .alloc _ _ | .install _ _ _
  | .discard _ _ | .readPid _ _ | .sample _ _ _ | .cas _ _ _ _ | .close _ _ _ | .write _ _ | .free _ _ => isTrue trivial

/-- A sound move. -/
def Conf.Sound (c : Conf τ) (x : τ × Move) : Prop := x.2 = .run → c.SoundAt (c.pc x.1)

instance (c : Conf τ) (x : τ × Move) : Decidable (c.Sound x) := inferInstanceAs (Decidable (_ → _))

/-- The prefix is that of the process as soon as there are buffers. -/
structure Globals (e : Process) (s : State) : Prop extends PrefixOk s where
  own : s.procid = e.pid → s.prefixBuf = prefixText e
  used : s.live ≠ [] → s.procid = e.pid

/-- What a flusher has read. -/
def Pc.Read (e : Process) : Pc → Prop
  | .sample _ ptr pid => ptr ≠ 0 ∧ pid = e.pid
  | .cas _ ptr pid idx => ptr ≠ 0 ∧ pid = e.pid ∧ idx < 2 ^ 16 ∧ idx ≠ (prefixText e).length
  | _ => True

/-- **The invariant**: the account of every buffer is true. -/
structure Conf.Inv (e : Process) (c : Conf τ) : Prop where
  globals : Globals e c.state
  ledger : ∀ a, a ≠ 0 → (c.ledger a).Ok e.pid (prefixText e).length a
  read : ∀ t, (c.pc t).Read e

theorem Globals.freshPrefix_eq {e : Process} {s : State} (h : Globals e s) : freshPrefix e s = prefixText e := by
  unfold freshPrefix
  split_ifs with hpid
  · exact h.own hpid
  · rfl

theorem Globals.prefixLen_eq {e : Process} {s : State} (h : Globals e s) (hpid : s.procid = e.pid) :
    s.prefixLen = (prefixText e).length := by
  rw [← h.len, h.own hpid]

/-- No thread dooms more than a record. -/
theorem doomed_le (c : Conf τ) (a : Nat) : (c.ledger a).doomed ≤ bufferSize * (c.ledger a).holders := by
  have hpc : ∀ p : Pc, p.role.doomed a ≤ bufferSize * p.role.holders a := by
    intro p
    cases p with
    | rollback m ptr =>
      have := length_text_lt m
      simp only [Pc.role, Role.doomed, Role.holders]
      split_ifs <;> omega
    | copy m ptr idx => simp only [Pc.role, Role.doomed, Role.holders]; split_ifs <;> omega
    | release ptr => simp only [Pc.role, Role.doomed, Role.holders]; split_ifs <;> omega
    | _ => simp [Pc.role, Role.doomed, Role.holders]
  exact total_le_mul (f := fun p : Pc => p.role.doomed a) (g := fun p : Pc => p.role.holders a) hpc c.pc

end Conf

/-! ## One move -/

section Run

variable {τ : Type*} [DecidableEq τ] {A : Allocator} {e : Process} {c c' : Conf τ} {t : τ} {q : Pc} {s : State}

theorem step_run (h : c.step A e (t, .run) = some c') : c' = c.run A e t := by
  simp only [Conf.step] at h
  split_ifs at h
  cases h
  rfl

/-- A move is a call, or the next step of a thread. -/
theorem step_cases {x : Move} (h : c.step A e (t, x) = some c') :
    (∃ q, (q = .loadFlush ∨ ∃ m, q = .load m) ∧ c.pc t = .idle ∧ c' = c.goto t q) ∨
      x = .run ∧ c' = c.run A e t := by
  cases x with
  | blog m =>
    simp only [Conf.step] at h
    split_ifs at h with hkilled hidle
    cases h
    exact Or.inl ⟨_, Or.inr ⟨m, rfl⟩, hidle, rfl⟩
  | flush =>
    simp only [Conf.step] at h
    split_ifs at h with hkilled hidle
    cases h
    exact Or.inl ⟨_, Or.inl rfl, hidle, rfl⟩
  | run => exact Or.inr ⟨rfl, step_run h⟩

/-- A call sends no thread anywhere else. -/
theorem goto_pc {x : Pc} {u : τ} (hx : x ≠ q) (hu : (c.goto t q).pc u = x) : c.pc u = x := by
  simp only [Conf.goto] at hu
  by_cases hut : u = t
  · subst hut
    rw [Function.update_self] at hu
    exact absurd hu.symm hx
  · rwa [Function.update_of_ne hut] at hu

theorem run_ok (h : exec A e (c.pc t) c.state = .ok (q, s)) : c.run A e t =
    ⟨s, Function.update c.pc t q, c.killed, noteTaken c.taken (c.pc t) q,
      noteWrites c.taken c.state c.writes (c.pc t)⟩ := by
  rw [Conf.run, h]

theorem run_error {x : Stuck} (h : exec A e (c.pc t) c.state = .error x) :
    c.run A e t = { c with killed := true } := by
  rw [Conf.run, h]

variable [Fintype τ]

/-- The accounts when a thread is at another point and the state is another one. -/
theorem ledger_moved (killed : Bool) (taken : Nat → List Record) (writes : List Write) (a : Nat) :
    (⟨s, Function.update c.pc t q, killed, taken, writes⟩ : Conf τ).ledger a =
      ⟨s.live.count a, pointsTo s.procPibr a, (s.mem a).pibr, textsLength (taken a),
        (c.ledger a).holders + q.role.holders a - (c.pc t).role.holders a,
        (c.ledger a).doomed + q.role.doomed a - (c.pc t).role.doomed a,
        (c.ledger a).flushers + q.role.flushers a - (c.pc t).role.flushers a,
        (c.ledger a).makers + q.role.makers a - (c.pc t).role.makers a,
        (c.ledger a).closers + q.role.closers a - (c.pc t).role.closers a⟩ := by
  have hroles : Conf.roles (⟨s, Function.update c.pc t q, killed, taken, writes⟩ : Conf τ) =
      Function.update c.roles t q.role :=
    funext fun u => Function.apply_update (fun _ => Pc.role) c.pc t q u
  have hcount : ∀ f : Role → Nat, total f (Function.update c.roles t q.role) =
      total f c.roles + f q.role - f (c.pc t).role := by
    intro f
    have htotal := total_update f c.roles t q.role
    simp only [Conf.roles] at htotal ⊢
    omega
  simp only [Conf.ledger, hroles, hcount]

/-- The accounts do not change when nothing that they tell of does. -/
theorem ledger_same (killed : Bool) (writes : List Write) (hrole : q.role = (c.pc t).role)
    (hlive : s.live = c.state.live) (hcurrent : s.procPibr = c.state.procPibr)
    (hword : ∀ a, (s.mem a).pibr = (c.state.mem a).pibr) (a : Nat) :
    (⟨s, Function.update c.pc t q, killed, c.taken, writes⟩ : Conf τ).ledger a = c.ledger a := by
  rw [ledger_moved, hlive, hcurrent, hword, hrole]
  simp only [Nat.add_sub_cancel]
  rfl

end Run

end Cosmost.Bblog
