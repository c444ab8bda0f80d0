import Cosmost.Bblog.Invariant

/-!
# Writes stay inside the buffer

Whatever the order of the steps, a reservation that takes the `memcpy` branch covers bytes behind the prefix and before
the room for the end, in the buffer whose word it incremented, and the compare-and-swap of `flush_buffer` succeeds only
with an index between the same bounds (`writes_inside`). Nothing is asked of the moves: a thread may increment the word
of a buffer that was freed, as long as its memory is not handed out again. That word is `0`, so the increment is found to
belong to no buffer.

`Conf.Bounded` says so of each buffer that threads can know: its word is the account of the reservations on it, or it is
`0` and nobody has a reservation.
-/

namespace Cosmost.Bblog

open Cosmost.Lib

/-! ## Addresses -/

/-- `memalign` hands out no address twice. -/
def Allocator.Once (A : Allocator) : Prop :=
  ∀ n live a p n' live' p', A.memalign n live = some (a, p) → A.memalign n' live' = some (a, p') → n = n'

/-- One of the first `n` calls can have returned the address. -/
def Allocator.Issued (A : Allocator) (n a : Nat) : Prop := ∃ i live p, i < n ∧ A.memalign i live = some (a, p)

theorem Allocator.Issued.mono {A : Allocator} {n n' a : Nat} (h : A.Issued n a) (hn : n ≤ n') : A.Issued n' a := by
  obtain ⟨i, live, p, hi, hA⟩ := h
  exact ⟨i, live, p, by omega, hA⟩

/-- The next answer is a new address. -/
theorem Allocator.Once.not_issued {A : Allocator} (h : A.Once) {n a : Nat} {live : List Nat} {p : Pibr}
    (hA : A.memalign n live = some (a, p)) : ¬ A.Issued n a := by
  rintro ⟨i, live', p', hi, hA'⟩
  have := h _ _ _ _ _ _ _ hA hA'
  omega

theorem initBuffer_allocs (e : Process) (p : Nat) (s : State) : (initBuffer e p s).allocs = s.allocs := by
  unfold initBuffer reinitProcid
  split_ifs with hpid
  · rfl
  · by_cases hlong : (prefixText e).length ≥ maxPrefixLen <;> simp only [hlong, ↓reduceIte]
    rfl

/-- A new buffer is an answer of `memalign`. -/
theorem allocBuffer_issued {A : Allocator} {e : Process} {s s' : State} {a : Nat} (h : allocBuffer A e s = (a, s'))
    (ha : a ≠ 0) : (∃ p, A.memalign s.allocs s.live = some (a, p)) ∧ s'.allocs = s.allocs + 1 := by
  cases hA : A.memalign s.allocs s.live with
  | none =>
    rw [allocBuffer, hA] at h
    cases h
    exact absurd rfl ha
  | some x =>
    obtain ⟨b, p⟩ := x
    simp only [allocBuffer, hA] at h
    split_ifs at h <;> cases h
    · exact absurd rfl ha
    · exact ⟨⟨p, rfl⟩, initBuffer_allocs ..⟩

/-- The first buffer of `bblog_init` is one. -/
theorem bblogInit_issued {A : Allocator} {e : Process} {s : State} (he : e.Fits) (hs : PrefixOk s)
    (h : s.procPibr = 0) (hp : (bblogInit A e s).procPibr ≠ 0) :
    A.Issued (bblogInit A e s).allocs (bblogInit A e s).procPibr := by
  cases hA : A.memalign s.allocs s.live with
  | none => exact absurd (by simp [bblogInit, swapBuffers, allocBuffer, h, hA]) hp
  | some x =>
    obtain ⟨a, s', heq, hf⟩ := allocBuffer_fresh he hs (A := A) (by rw [hA]; rfl)
    have ha : a ≠ 0 := by have := hf.page.1; omega
    obtain ⟨⟨p, hp⟩, hallocs⟩ := allocBuffer_issued heq ha
    have hinit : bblogInit A e s = { s' with procPibr := a } := by
      simp [bblogInit, swapBuffers, h, heq, ha, hf.procPibr]
    rw [hinit]
    exact ⟨_, _, p, by simp only [hallocs]; exact Nat.lt_succ_self _, hp⟩

/-- The buffer that a thread has read from `proc_pibr`; `0` is none. -/
def Pc.shared : Pc → Nat
  | .add _ p => p
  | .copy _ ptr _ | .release ptr | .rollback _ ptr => ptr
  | .check _ curr | .alloc _ curr | .fallback _ curr | .install _ curr _ => curr
  | .readPid _ ptr | .sample _ ptr _ | .cas _ ptr _ _ => ptr
  | _ => 0

/-- The buffer that a thread has allocated and not shared. -/
def Pc.made : Pc → Nat
  | .install _ _ new | .discard _ new => new
  | _ => 0

@[simp] theorem shared_next (k : Option Record) : (Pc.next k).shared = 0 := by
  cases k <;> rfl

@[simp] theorem made_next (k : Option Record) : (Pc.next k).made = 0 := by
  cases k <;> rfl

theorem shared_of_holder {x : Pc} {a : Nat} (h : x.role.holders a ≠ 0) : x.shared = a := by
  cases x with
  | copy m ptr idx => simp only [Pc.role, Role.holders, ne_eq, ite_eq_right_iff, not_forall] at h; exact h.1
  | release ptr => simp only [Pc.role, Role.holders, ne_eq, ite_eq_right_iff, not_forall] at h; exact h.1
  | rollback m ptr => simp only [Pc.role, Role.holders, ne_eq, ite_eq_right_iff, not_forall] at h; exact h.1
  | _ => exact absurd rfl h

theorem shared_of_flusher {x : Pc} {a : Nat} (h : x.role = .flusher a) : x.shared = a := by
  cases x with
  | readPid k ptr => cases h; rfl
  | sample k ptr pid => cases h; rfl
  | cas k ptr pid idx => cases h; rfl
  | _ => cases h

/-- Flushing after a swap keeps the address. -/
theorem shared_swapped {k : Option Record} {curr : Nat} (h : curr ≠ 0 → Page curr) :
    (Pc.swapped k curr).shared = curr := by
  unfold Pc.swapped
  split_ifs with hcurr
  · exact pibrPtr_page (h hcurr)
  · rw [shared_next, not_not.mp hcurr]

theorem holders_swapped {k : Option Record} {curr : Nat} (h : curr ≠ 0 → Page curr) (a : Nat) :
    (Pc.swapped k curr).role.holders a = 0 := by
  rw [swapped_role h]
  split_ifs <;> rfl

theorem doomed_swapped {k : Option Record} {curr : Nat} (h : curr ≠ 0 → Page curr) (a : Nat) :
    (Pc.swapped k curr).role.doomed a = 0 := by
  rw [swapped_role h]
  split_ifs <;> rfl

theorem made_swapped (k : Option Record) (curr : Nat) : (Pc.swapped k curr).made = 0 := by
  unfold Pc.swapped
  split_ifs
  · rfl
  · exact made_next k

/-! ## The invariant -/

/-- The word was taken away, and nobody has a reservation. -/
structure Ledger.Detached (l : Ledger) : Prop where
  word : l.word = 0
  holders : l.holders = 0

/-- The word of a buffer that threads know. -/
def Ledger.Told (pid n a : Nat) (l : Ledger) : Prop := l.Filling pid n a ∨ l.Detached

/-- The same word, and the same reservations. -/
structure Ledger.Same (l' l : Ledger) : Prop where
  word : l'.word = l.word
  stored : l'.stored = l.stored
  holders : l'.holders = l.holders
  doomed : l'.doomed = l.doomed

theorem Ledger.Same.told {l' l : Ledger} (h : l'.Same l) {pid n a : Nat} (ht : l.Told pid n a) : l'.Told pid n a := by
  rcases ht with hf | hd
  · exact Or.inl ⟨by rw [h.word, h.stored, h.holders, h.doomed]; exact hf.word, by rw [h.stored]; exact hf.room⟩
  · exact Or.inr ⟨h.word.trans hd.word, h.holders.trans hd.holders⟩

section Bounded

variable {τ : Type*} [Fintype τ]

/-- A buffer that threads can know: `proc_pibr` points to it, or a thread has read its address there. -/
def Conf.Shared (c : Conf τ) (a : Nat) : Prop := c.state.procPibr = a ∨ ∃ t, (c.pc t).shared = a

/-- Only the thread `t` knows the buffer: it has just made it. -/
structure Conf.Private (e : Process) (c : Conf τ) (t : τ) (a : Nat) : Prop where
  unshared : ¬ c.Shared a
  one : ∀ u, (c.pc u).made = a → u = t
  word : (c.ledger a).word = packBuffer a e.pid (prefixText e).length 0
  stored : (c.ledger a).stored = 0

/-- A buffer that `memalign` returned and `init_buffer` initialised. -/
structure Made (A : Allocator) (e : Process) (s : State) (a : Nat) : Prop where
  page : Page a
  issued : A.Issued s.allocs a
  procid : s.procid = e.pid

/-- What holds of the buffers in every order of the steps. -/
structure Conf.Bounded (A : Allocator) (e : Process) (c : Conf τ) : Prop where
  globals : Globals e c.state
  read : ∀ t, (c.pc t).Read e
  known : ∀ a, a ≠ 0 → (c.Shared a ∨ ∃ t, (c.pc t).made = a) → Made A e c.state a
  shared : ∀ a, a ≠ 0 → c.Shared a → (c.ledger a).Told e.pid (prefixText e).length a
  made : ∀ t a, a ≠ 0 → (c.pc t).made = a → c.Private e t a

/-- Every thread has at most one reservation. -/
theorem holders_le (c : Conf τ) (a : Nat) : (c.ledger a).holders ≤ Fintype.card τ := by
  refine total_le_card (fun r => ?_) _
  cases r with
  | holder b n => simp only [Role.holders]; split_ifs <;> omega
  | _ => exact Nat.zero_le 1

/-- Nobody has a reservation on a buffer that nobody knows. -/
theorem Conf.not_shared {c : Conf τ} {a : Nat} (h : ¬ c.Shared a) : (c.ledger a).holders = 0 := by
  refine total_eq_zero fun t => ?_
  by_contra hheld
  exact h (Or.inr ⟨t, shared_of_holder hheld⟩)

/-! ## Steps -/

variable {A : Allocator} {e : Process} {c c' : Conf τ} {t : τ} {k : Option Record} {m : Record}
  {p ptr curr new pid idx : Nat} {q : Pc} {s : State}

/-- A flusher has a buffer of this process. -/
theorem Conf.Bounded.read_exec (h : c.Bounded A e) (hok : exec A e (c.pc t) c.state = .ok (q, s)) : q.Read e :=
  Bblog.read_exec h.globals (h.read t) (fun ptr hptr hrole =>
    (h.known ptr hptr (Or.inl (Or.inr ⟨t, shared_of_flusher hrole⟩))).procid) hok

variable [DecidableEq τ]

omit [Fintype τ] in
/-- After a step a thread knows what it knew, and the stepping thread what is said of its new point. -/
theorem shared_run (hok : exec A e (c.pc t) c.state = .ok (q, s)) {a : Nat} (h : (c.run A e t).Shared a) :
    s.procPibr = a ∨ q.shared = a ∨ c.Shared a := by
  rw [run_ok hok] at h
  rcases h with h | ⟨u, hu⟩
  · exact Or.inl h
  · by_cases hut : u = t
    · subst hut
      simp only [Function.update_self] at hu
      exact Or.inr (Or.inl hu)
    · simp only [Function.update_of_ne hut] at hu
      exact Or.inr (Or.inr (Or.inr ⟨u, hu⟩))

omit [Fintype τ] in
theorem made_run (hok : exec A e (c.pc t) c.state = .ok (q, s)) {u : τ} {a : Nat}
    (h : ((c.run A e t).pc u).made = a) : (u = t ∧ q.made = a) ∨ (c.pc u).made = a := by
  rw [run_ok hok] at h
  by_cases hut : u = t
  · subst hut
    simp only [Function.update_self] at h
    exact Or.inl ⟨rfl, h⟩
  · simp only [Function.update_of_ne hut] at h
    exact Or.inr h

omit [DecidableEq τ] in
theorem Made.mono {s' : State} {a : Nat} (h : Made A e s a) (hallocs : s.allocs ≤ s'.allocs)
    (hprocid : s.procid = e.pid → s'.procid = e.pid) : Made A e s' a :=
  ⟨h.page, h.issued.mono hallocs, hprocid h.procid⟩

/-- A step keeps the invariant if it keeps what is known of the buffers. -/
theorem Conf.Bounded.of_run (h : c.Bounded A e) (he : e.Fits) (hok : exec A e (c.pc t) c.state = .ok (q, s))
    (hshared : ∀ a, a ≠ 0 → (c.run A e t).Shared a →
      Made A e s a ∧ ((c.run A e t).ledger a).Told e.pid (prefixText e).length a)
    (hmade : ∀ u a, a ≠ 0 → ((c.run A e t).pc u).made = a → Made A e s a ∧ (c.run A e t).Private e u a) :
    (c.run A e t).Bounded A e := by
  have hstate : (c.run A e t).state = s := by rw [run_ok hok]
  refine ⟨?_, fun u => ?_, fun a ha hk => ?_, fun a ha hs => (hshared a ha hs).2, fun u a ha hu => (hmade u a ha hu).2⟩
  · rw [hstate]
    exact h.globals.exec he hok
  · rw [run_ok hok]
    by_cases hut : u = t
    · subst hut
      simpa only [Function.update_self] using h.read_exec hok
    · simpa only [Function.update_of_ne hut] using h.read u
  · rw [hstate]
    rcases hk with hs | ⟨u, hu⟩
    · exact (hshared a ha hs).1
    · exact (hmade u a ha hu).1

/-- A step that makes no buffer and shares none. -/
theorem Conf.Bounded.keep (h : c.Bounded A e) (he : e.Fits) (hok : exec A e (c.pc t) c.state = .ok (q, s))
    (hallocs : c.state.allocs ≤ s.allocs) (hprocid : s.procid = c.state.procid)
    (hp : s.procPibr = c.state.procPibr ∨ s.procPibr = 0) (hq : q.shared = 0 ∨ c.Shared q.shared)
    (hm : q.made = 0 ∨ q.made = (c.pc t).made)
    (htold : ∀ a, a ≠ 0 → c.Shared a → ((c.run A e t).ledger a).Told e.pid (prefixText e).length a)
    (hkeep : ∀ a, a ≠ 0 → ¬ c.Shared a → ((c.run A e t).ledger a).Same (c.ledger a)) : (c.run A e t).Bounded A e := by
  have hshared : ∀ a, a ≠ 0 → (c.run A e t).Shared a → c.Shared a := by
    intro a ha hs
    rcases shared_run hok hs with hs | rfl | hs
    · exact Or.inl (hp.elim (fun hp => hp.symm.trans hs) fun hp => absurd (hs.symm.trans hp) ha)
    · exact hq.resolve_left ha
    · exact hs
  have hmade : ∀ u a, a ≠ 0 → ((c.run A e t).pc u).made = a → (c.pc u).made = a := by
    intro u a ha hu
    rcases made_run hok hu with ⟨rfl, rfl⟩ | hu
    · exact (hm.resolve_left ha).symm
    · exact hu
  have hknown : ∀ a, a ≠ 0 → (c.Shared a ∨ ∃ t, (c.pc t).made = a) → Made A e s a := fun a ha hk =>
    (h.known a ha hk).mono hallocs fun hpid => hprocid.trans hpid
  refine h.of_run he hok (fun a ha hs => ⟨hknown a ha (Or.inl (hshared a ha hs)), htold a ha (hshared a ha hs)⟩)
    fun u a ha hu => ?_
  have hu := hmade u a ha hu
  have hprivate := h.made u a ha hu
  have hsame := hkeep a ha hprivate.unshared
  exact ⟨hknown a ha (Or.inr ⟨u, hu⟩), fun hs => hprivate.unshared (hshared a ha hs),
    fun v hv => hprivate.one v (hmade v a ha hv), hsame.word.trans hprivate.word, hsame.stored.trans hprivate.stored⟩

/-- A step that leaves the words and the reservations. -/
theorem Conf.Bounded.quiet (h : c.Bounded A e) (he : e.Fits) (hok : exec A e (c.pc t) c.state = .ok (q, s))
    (hallocs : c.state.allocs ≤ s.allocs) (hprocid : s.procid = c.state.procid)
    (hp : s.procPibr = c.state.procPibr ∨ s.procPibr = 0) (hq : q.shared = 0 ∨ c.Shared q.shared)
    (hm : q.made = 0 ∨ q.made = (c.pc t).made) (hword : ∀ a, (s.mem a).pibr = (c.state.mem a).pibr)
    (htaken : noteTaken c.taken (c.pc t) q = c.taken) (hholders : ∀ a, q.role.holders a = (c.pc t).role.holders a)
    (hdoomed : ∀ a, q.role.doomed a = (c.pc t).role.doomed a) : (c.run A e t).Bounded A e := by
  have hsame : ∀ a, ((c.run A e t).ledger a).Same (c.ledger a) := by
    intro a
    rw [ledger_run hok, htaken, hholders, hdoomed, hword]
    exact ⟨rfl, rfl, Nat.add_sub_cancel .., Nat.add_sub_cancel ..⟩
  exact h.keep he hok hallocs hprocid hp hq hm (fun a ha hs => (hsame a).told (h.shared a ha hs)) fun a _ _ => hsame a

theorem Conf.Bounded.error {x : Stuck} (h : c.Bounded A e) (herr : exec A e (c.pc t) c.state = .error x) :
    (c.run A e t).Bounded A e := by
  rw [run_error herr]
  refine ⟨h.globals, h.read, h.known, h.shared, fun u a ha hu => ?_⟩
  have hprivate := h.made u a ha hu
  exact ⟨hprivate.unshared, hprivate.one, hprivate.word, hprivate.stored⟩

/-- A step on a buffer that the thread knows, which changes its word and its reservations and keeps its account. -/
theorem Conf.Bounded.charge (h : c.Bounded A e) (he : e.Fits) (hp : p ≠ 0) (hknows : (c.pc t).shared = p)
    {w : BitVec 64} (hok : exec A e (c.pc t) c.state = .ok (q, c.state.setWord p w)) (hq : q.shared = 0 ∨ q.shared = p)
    (hm : q.made = 0) (htaken : ∀ a, a ≠ p → noteTaken c.taken (c.pc t) q a = c.taken a)
    (hholders : ∀ a, a ≠ p → q.role.holders a = (c.pc t).role.holders a)
    (hdoomed : ∀ a, a ≠ p → q.role.doomed a = (c.pc t).role.doomed a)
    (htold : ((c.run A e t).ledger p).Told e.pid (prefixText e).length p) : (c.run A e t).Bounded A e := by
  have hshared : c.Shared p := Or.inr ⟨t, hknows⟩
  have hsame : ∀ a, a ≠ p → ((c.run A e t).ledger a).Same (c.ledger a) := by
    intro a ha
    rw [ledger_run hok, htaken a ha, hholders a ha, hdoomed a ha, setWord_mem_of_ne _ _ _ ha]
    exact ⟨rfl, rfl, Nat.add_sub_cancel .., Nat.add_sub_cancel ..⟩
  refine h.keep he hok (Nat.le_refl _) rfl (Or.inl rfl) (hq.imp id fun hq => by rwa [hq]) (Or.inl hm)
    (fun a ha hs => ?_) fun a ha hs => hsame a fun hap => hs (hap ▸ hshared)
  by_cases hap : a = p
  · subst hap
    exact htold
  · exact (hsame a hap).told (h.shared a ha hs)

omit [DecidableEq τ] in
/-- `fetch_and_add`: a fault, or a reservation on a buffer whose word is its account. -/
theorem Conf.Bounded.exec_add (h : c.Bounded A e) (hτ : Fintype.card τ < 2 ^ 12) (hpc : c.pc t = .add m p) :
    exec A e (.add m p) c.state = .error .fault ∨
    p ≠ 0 ∧ Page p ∧ (c.ledger p).Filling e.pid (prefixText e).length p ∧
      ((Fitting e m (c.state.mem p).pibr ∧ exec A e (.add m p) c.state =
          .ok (.copy m p (pibrIdx (c.state.mem p).pibr), c.state.setWord p ((c.state.mem p).pibr + m.incr))) ∨
        ¬ Fitting e m (c.state.mem p).pibr ∧ exec A e (.add m p) c.state =
          .ok (.rollback m p, c.state.setWord p ((c.state.mem p).pibr + m.incr))) := by
  by_cases hp : p = 0
  · exact Or.inl (exec_add_fault A e m (Or.inl hp))
  · have hshared : c.Shared p := Or.inr ⟨t, by rw [hpc]; rfl⟩
    have hpage := (h.known p hp (Or.inl hshared)).page
    rcases h.shared p hp hshared with hf | hd
    · have hptr := pibrPtr_of hf.word hpage (Nat.lt_of_le_of_lt (holders_le c p) hτ)
      exact Or.inr ⟨hp, hpage, hf, exec_add_of A e m hp hptr⟩
    · exact Or.inl (exec_add_fault A e m (Or.inr hd.word))

theorem Conf.Bounded.add (h : c.Bounded A e) (he : e.Fits) (hτ : Fintype.card τ < 2 ^ 12)
    (hpc : c.pc t = .add m p) : (c.run A e t).Bounded A e := by
  rcases h.exec_add hτ hpc with herr | ⟨hp, hpage, hf, hfit⟩
  · exact h.error (hpc.symm ▸ herr)
  · have hfew : (c.ledger p).holders < 2 ^ 12 := Nat.lt_of_le_of_lt (holders_le c p) hτ
    have hother : ∀ (f : Nat → Role → Nat) (n : Nat), (∀ a, a ≠ p → f a (.holder p n) = f a .outside) →
        ∀ a, a ≠ p → f a (.holder p n) = f a (c.pc t).role := fun f n hf a ha => by rw [hf a ha, hpc]; rfl
    rcases hfit with ⟨hfit, hok⟩ | ⟨-, hok⟩
    · have hexec : exec A e (c.pc t) c.state = _ := hpc.symm ▸ hok
      refine h.charge he hp (by rw [hpc]; rfl) hexec (Or.inr rfl) rfl (fun a ha => ?_)
        (hother Role.holders 0 fun a ha => if_neg (Ne.symm ha)) (hother Role.doomed 0 fun a ha => if_neg (Ne.symm ha))
        (Or.inl ?_)
      · rw [hpc]
        exact Function.update_of_ne ha ..
      · rw [ledger_run hexec, hpc]
        convert hf.take hfew (doomed_le c p) (length_text_lt m) he.pid hpage hfit.1 hfit.2 using 1
        simp [noteTaken, Pc.role, Conf.ledger, State.setWord, Record.incr]
    · have hexec : exec A e (c.pc t) c.state = _ := hpc.symm ▸ hok
      refine h.charge he hp (by rw [hpc]; rfl) hexec (Or.inr rfl) rfl (fun a _ => by rw [hpc]; rfl)
        (hother Role.holders _ fun a ha => if_neg (Ne.symm ha)) (hother Role.doomed _ fun a ha => if_neg (Ne.symm ha))
        (Or.inl ?_)
      rw [ledger_run hexec, hpc]
      convert hf.miss hfew (doomed_le c p) (length_text_lt m) he.pid hpage using 1
      simp [noteTaken, Pc.role, Conf.ledger, State.setWord, Record.incr]

/-- `fetch_and_sub` by a thread that has a reservation. -/
theorem Conf.Bounded.drop (h : c.Bounded A e) (he : e.Fits) (hp : ptr ≠ 0) {size : Nat}
    (hrole : (c.pc t).role = .holder ptr size) (hsize : size < bufferSize)
    (hok : exec A e (c.pc t) c.state =
      .ok (q, c.state.setWord ptr ((c.state.mem ptr).pibr - packBuffer 0 0 size 1)))
    (hq : q.role = .outside) (hqs : q.shared = 0 ∨ q.shared = ptr) (hqm : q.made = 0)
    (htaken : noteTaken c.taken (c.pc t) q = c.taken) : (c.run A e t).Bounded A e := by
  have hheld := role_le (Role.holders ptr) c t
  have hdoomed := role_le (Role.doomed ptr) c t
  rw [hrole] at hheld hdoomed
  simp only [Role.holders, Role.doomed, ↓reduceIte] at hheld hdoomed
  have hknows : (c.pc t).shared = ptr := shared_of_holder (by rw [hrole]; simp)
  have hf := (h.shared ptr hp (Or.inr ⟨t, hknows⟩)).resolve_right fun hd => absurd hd.holders (Nat.ne_of_gt hheld)
  refine h.charge he hp hknows hok hqs hqm (fun a _ => congrFun htaken a) (fun a ha => ?_) (fun a ha => ?_) (Or.inl ?_)
  · rw [hrole, hq]
    exact (if_neg (Ne.symm ha)).symm
  · rw [hrole, hq]
    exact (if_neg (Ne.symm ha)).symm
  · rw [ledger_run hok, htaken, hrole, hq]
    convert hf.drop hsize hheld hdoomed using 1
    simp [Conf.ledger, State.setWord]

omit [DecidableEq τ] in
/-- **A successful compare-and-swap**: the word is the account of a buffer that nobody holds. -/
theorem Conf.Bounded.cas_eq (h : c.Bounded A e) (he : e.Fits) (hτ : Fintype.card τ < 2 ^ 12)
    (hpc : c.pc t = .cas k ptr pid idx) (hw : (c.state.mem ptr).pibr = packBuffer ptr pid idx 0) :
    (c.ledger ptr).Filling e.pid (prefixText e).length ptr ∧ (c.ledger ptr).holders = 0 ∧
      idx = (prefixText e).length + (c.ledger ptr).stored := by
  have hread := h.read t
  rw [hpc] at hread
  obtain ⟨hptr, rfl, hidx, -⟩ := hread
  have hshared : c.Shared ptr := Or.inr ⟨t, by rw [hpc]; rfl⟩
  have hpage := (h.known ptr hptr (Or.inl hshared)).page
  have hf : (c.ledger ptr).Filling e.pid (prefixText e).length ptr := by
    refine (h.shared ptr hptr hshared).resolve_right fun hd => ?_
    have hzero : packBuffer ptr e.pid idx 0 = 0 := hw.symm.trans hd.word
    have hpack := packBuffer_toNat he.pid (Or.inl hpage) hidx (show 0 < 2 ^ 12 by decide)
    have hpos := hpage.1
    rw [hzero, fields, show (0 : BitVec 64).toNat = 0 from rfl] at hpack
    omega
  exact ⟨hf, hf.cas_eq (Nat.lt_of_le_of_lt (holders_le c ptr) hτ) (doomed_le c ptr) he.pid hpage hidx hw⟩

theorem Conf.Bounded.cas (h : c.Bounded A e) (he : e.Fits) (hτ : Fintype.card τ < 2 ^ 12)
    (hpc : c.pc t = .cas k ptr pid idx) : (c.run A e t).Bounded A e := by
  by_cases hw : (c.state.mem ptr).pibr = packBuffer ptr pid idx 0
  · have hread := h.read t
    rw [hpc] at hread
    have hok : exec A e (c.pc t) c.state = .ok (.close k ptr idx, c.state.setWord ptr 0) := by
      rw [hpc]
      exact if_pos hw
    refine h.charge he hread.1 (by rw [hpc]; rfl) hok (Or.inl rfl) rfl (fun a _ => by rw [hpc]; rfl)
      (fun a _ => by rw [hpc]; rfl) (fun a _ => by rw [hpc]; rfl) (Or.inr ⟨?_, ?_⟩)
    · rw [ledger_run hok]
      exact congrArg Pibr.pibr (setWord_mem_self ..)
    · rw [ledger_run hok, hpc]
      exact (h.cas_eq he hτ hpc hw).2.1
  · have hok : exec A e (c.pc t) c.state = .ok (.cas k ptr pid idx, c.state) := by
      rw [hpc]
      exact if_neg hw
    exact h.quiet he hok (Nat.le_refl _) rfl (Or.inl rfl) (Or.inr (Or.inr ⟨t, by rw [hpc]⟩)) (Or.inl rfl) (fun _ => rfl)
      (by rw [hpc]; rfl) (fun _ => by rw [hpc]) fun _ => by rw [hpc]

theorem Conf.Bounded.alloc (h : c.Bounded A e) (he : e.Fits) (hA : A.Once) (hpc : c.pc t = .alloc k curr) :
    (c.run A e t).Bounded A e := by
  have hcurr : curr = 0 ∨ c.Shared curr := Or.inr (Or.inr ⟨t, by rw [hpc]; rfl⟩)
  cases hmem : A.memalign c.state.allocs c.state.live with
  | none =>
    have hok : exec A e (c.pc t) c.state =
        .ok (.fallback k curr, { c.state with allocs := c.state.allocs + 1 }) := by
      rw [hpc]
      simp only [exec, allocBuffer, hmem, ↓reduceIte]
    exact h.quiet he hok (Nat.le_succ _) rfl (Or.inl rfl) hcurr (Or.inl rfl) (fun _ => rfl) (by rw [hpc]; rfl)
      (fun _ => by rw [hpc]; rfl) fun _ => by rw [hpc]; rfl
  | some x =>
    obtain ⟨new, s, heq, hf⟩ := allocBuffer_fresh he h.globals.toPrefixOk (A := A) (by rw [hmem]; rfl)
    have hnew : new ≠ 0 := by have := hf.page.1; omega
    obtain ⟨⟨p, hp⟩, hallocs⟩ := allocBuffer_issued heq hnew
    have hok : exec A e (c.pc t) c.state = .ok (.install k curr new, s) := by
      rw [hpc]
      simp only [exec, heq, hnew, ↓reduceIte]
    -- nobody knows the new buffer
    have hfresh : ∀ a, a ≠ 0 → (c.Shared a ∨ ∃ t, (c.pc t).made = a) → a ≠ new := by
      rintro a ha hk rfl
      exact hA.not_issued hp (h.known a ha hk).issued
    have hshared : ∀ a, a ≠ 0 → (c.run A e t).Shared a → c.Shared a := by
      intro a ha hs
      rcases shared_run hok hs with hs | rfl | hs
      · exact Or.inl (hf.procPibr.symm.trans hs)
      · exact hcurr.resolve_left ha
      · exact hs
    have hsame : ∀ a, a ≠ new → ((c.run A e t).ledger a).Same (c.ledger a) := by
      intro a ha
      rw [ledger_run hok, hpc, hf.other a ha]
      exact ⟨rfl, congrArg textsLength (Function.update_of_ne ha ..), Nat.add_sub_cancel .., Nat.add_sub_cancel ..⟩
    have hknown : ∀ a, a ≠ 0 → (c.Shared a ∨ ∃ t, (c.pc t).made = a) → Made A e s a := fun a ha hk =>
      (h.known a ha hk).mono (by rw [hallocs]; exact Nat.le_succ _) fun _ => hf.procid
    refine h.of_run he hok (fun a ha hs => ?_) fun u a ha hu => ?_
    · have hs := hshared a ha hs
      exact ⟨hknown a ha (Or.inl hs), (hsame a (hfresh a ha (Or.inl hs))).told (h.shared a ha hs)⟩
    · rcases made_run hok hu with ⟨rfl, rfl⟩ | hu
      · refine ⟨⟨hf.page, ⟨_, _, p, by rw [hallocs]; exact Nat.lt_succ_self _, hp⟩, hf.procid⟩,
          fun hs => hfresh _ ha (Or.inl (hshared _ ha hs)) rfl, fun v hv => ?_, ?_, ?_⟩
        · rcases made_run hok hv with ⟨rfl, -⟩ | hv
          · rfl
          · exact absurd rfl (hfresh _ ha (Or.inr ⟨v, hv⟩))
        · rw [ledger_run hok]
          exact hf.word.trans (by rw [hf.prefixLen, h.globals.freshPrefix_eq]; rfl)
        · rw [ledger_run hok, hpc]
          simp [noteTaken, Pc.made]
      · have han := hfresh a ha (Or.inr ⟨u, hu⟩)
        have hprivate := h.made u a ha hu
        refine ⟨hknown a ha (Or.inr ⟨u, hu⟩), fun hs => hprivate.unshared (hshared a ha hs), fun v hv => ?_,
          (hsame a han).word.trans hprivate.word, (hsame a han).stored.trans hprivate.stored⟩
        rcases made_run hok hv with ⟨-, hn⟩ | hv
        · exact absurd hn.symm han
        · exact hprivate.one v hv

/-- `proc_pibr` goes from the old buffer to the one that the thread has made, or the thread keeps that to itself. -/
theorem Conf.Bounded.install (h : c.Bounded A e) (he : e.Fits) (hpc : c.pc t = .install k curr new) :
    (c.run A e t).Bounded A e := by
  have hcurr : c.Shared curr := Or.inr ⟨t, by rw [hpc]; rfl⟩
  by_cases hp : c.state.procPibr = curr
  · have hpage : curr ≠ 0 → Page curr := fun hcurr0 => (h.known curr hcurr0 (Or.inl hcurr)).page
    have hok : exec A e (c.pc t) c.state = .ok (Pc.swapped k curr, { c.state with procPibr := new }) := by
      rw [hpc]
      exact if_pos hp
    have hsame : ∀ a, ((c.run A e t).ledger a).Same (c.ledger a) := by
      intro a
      rw [ledger_run hok, hpc, holders_swapped hpage, doomed_swapped hpage]
      exact ⟨rfl, rfl, Nat.add_sub_cancel .., Nat.add_sub_cancel ..⟩
    have hshared : ∀ a, a ≠ 0 → (c.run A e t).Shared a → a = new ∨ c.Shared a := by
      intro a _ hs
      rcases shared_run hok hs with hs | hs | hs
      · exact Or.inl hs.symm
      · rw [shared_swapped hpage] at hs
        exact Or.inr (hs ▸ hcurr)
      · exact Or.inr hs
    have hmade : ∀ u a, a ≠ 0 → ((c.run A e t).pc u).made = a → u ≠ t ∧ (c.pc u).made = a := by
      intro u a ha hu
      by_cases hut : u = t
      · rw [run_ok hok, hut] at hu
        simp only [Function.update_self, made_swapped] at hu
        exact absurd hu.symm ha
      · rcases made_run hok hu with ⟨rfl, -⟩ | hu
        · exact absurd rfl hut
        · exact ⟨hut, hu⟩
    refine h.of_run he hok (fun a ha hs => ?_) fun u a ha hu => ?_
    · rcases hshared a ha hs with rfl | hs
      · -- the new buffer: nobody has a reservation on it yet
        have ht : (c.pc t).made = a := by rw [hpc]; rfl
        have hmk := h.known a ha (Or.inr ⟨t, ht⟩)
        have hprivate := h.made t a ha ht
        have hheld := Conf.not_shared hprivate.unshared
        have hdoomed := doomed_le c a
        have hshort := he.short
        rw [hheld, Nat.mul_zero, Nat.le_zero] at hdoomed
        rw [maxPrefixLen_eq] at hshort
        refine ⟨⟨hmk.page, hmk.issued, hmk.procid⟩, (hsame a).told (Or.inl ⟨?_, ?_⟩)⟩
        · rw [hprivate.word, hprivate.stored, hheld, hdoomed]
          exact packBuffer_toNat he.pid (Or.inl hmk.page) (by omega) (by decide)
        · rw [hprivate.stored, loggerEntryMaxPayload_eq]
          omega
      · have hmk := h.known a ha (Or.inl hs)
        exact ⟨⟨hmk.page, hmk.issued, hmk.procid⟩, (hsame a).told (h.shared a ha hs)⟩
    · obtain ⟨hut, hu⟩ := hmade u a ha hu
      have hmk := h.known a ha (Or.inr ⟨u, hu⟩)
      have hprivate := h.made u a ha hu
      refine ⟨⟨hmk.page, hmk.issued, hmk.procid⟩, fun hs => ?_, fun v hv => hprivate.one v (hmade v a ha hv).2,
        (hsame a).word.trans hprivate.word, (hsame a).stored.trans hprivate.stored⟩
      rcases hshared a ha hs with rfl | hs
      · exact hut (hprivate.one t (by rw [hpc]; rfl)).symm
      · exact hprivate.unshared hs
  · have hok : exec A e (c.pc t) c.state = .ok (.discard k new, c.state) := by
      rw [hpc]
      exact if_neg hp
    exact h.quiet he hok (Nat.le_refl _) rfl (Or.inl rfl) (Or.inl rfl) (Or.inr (by rw [hpc]; rfl)) (fun _ => rfl)
      (by rw [hpc]; rfl) (fun _ => by rw [hpc]; rfl) fun _ => by rw [hpc]; rfl

/-- **Every step keeps the invariant.** -/
theorem Conf.Bounded.run (h : c.Bounded A e) (he : e.Fits) (hA : A.Once) (hτ : Fintype.card τ < 2 ^ 12) :
    (c.run A e t).Bounded A e := by
  have hknows : (c.pc t).shared = 0 ∨ c.Shared (c.pc t).shared := Or.inr (Or.inr ⟨t, rfl⟩)
  -- a step that shares nothing new and touches no word
  have hquiet : ∀ q s, exec A e (c.pc t) c.state = .ok (q, s) → s.allocs = c.state.allocs → s.procid = c.state.procid →
      (s.procPibr = c.state.procPibr ∨ s.procPibr = 0) →
      (q.shared = 0 ∨ q.shared = (c.pc t).shared ∨ q.shared = c.state.procPibr) → (q.made = 0 ∨ q.made = (c.pc t).made) →
      (∀ a, (s.mem a).pibr = (c.state.mem a).pibr) → noteTaken c.taken (c.pc t) q = c.taken →
      (∀ a, q.role.holders a = (c.pc t).role.holders a) → (∀ a, q.role.doomed a = (c.pc t).role.doomed a) →
      (c.run A e t).Bounded A e := by
    intro q s hok hallocs hprocid hp hq hm hword htaken hholders hdoomed
    refine h.quiet he hok (Nat.le_of_eq hallocs.symm) hprocid hp ?_ hm hword htaken hholders hdoomed
    rcases hq with hq | hq | hq
    · exact Or.inl hq
    · rwa [hq]
    · exact Or.inr (Or.inl hq.symm)
  cases hpc : c.pc t with
  | add m p => exact h.add he hτ hpc
  | alloc k curr => exact h.alloc he hA hpc
  | install k curr new => exact h.install he hpc
  | cas k ptr pid idx => exact h.cas he hτ hpc
  | idle =>
    rw [hpc] at hquiet
    exact hquiet _ _ rfl rfl rfl (Or.inl rfl) (Or.inl rfl) (Or.inl rfl) (fun _ => rfl) rfl (fun _ => rfl) fun _ => rfl
  | load m =>
    rw [hpc] at hquiet
    exact hquiet _ _ rfl rfl rfl (Or.inl rfl) (Or.inr (Or.inr rfl)) (Or.inl rfl) (fun _ => rfl) rfl (fun _ => rfl)
      fun _ => rfl
  | loadFlush =>
    rw [hpc] at hquiet
    exact hquiet _ _ rfl rfl rfl (Or.inl rfl) (Or.inr (Or.inr rfl)) (Or.inl rfl) (fun _ => rfl) rfl (fun _ => rfl)
      fun _ => rfl
  | copy m ptr idx =>
    rw [hpc] at hquiet
    exact hquiet _ _ rfl rfl rfl (Or.inl rfl) (Or.inr (Or.inl rfl)) (Or.inl rfl) (setBuf_pibr _ _ _) rfl (fun _ => rfl)
      fun _ => rfl
  | release ptr =>
    by_cases hptr : ptr = 0
    · exact h.error (x := .fault) (by rw [hpc, exec_release_eq, if_pos hptr])
    · refine h.drop he hptr (by rw [hpc]; rfl) (by decide) (q := .idle) ?_ rfl (Or.inl rfl) rfl (by rw [hpc]; rfl)
      have hone : packBuffer 0 0 0 1 = 1 := by decide
      rw [hpc, hone, exec_release_eq, if_neg hptr]
  | rollback m ptr =>
    by_cases hptr : ptr = 0
    · exact h.error (x := .fault) (by rw [hpc, exec_rollback_eq, if_pos hptr])
    · refine h.drop he hptr (by rw [hpc]; rfl) (length_text_lt m) (q := .check (some m) ptr) ?_ rfl (Or.inr rfl) rfl
        (by rw [hpc]; rfl)
      rw [hpc, exec_rollback_eq, if_neg hptr]
      rfl
  | check k curr =>
    rw [hpc] at hquiet
    by_cases hcurr : c.state.procPibr = curr
    · exact hquiet (.alloc k curr) c.state (by simp [exec, hcurr]) rfl rfl (Or.inl rfl) (Or.inr (Or.inl rfl)) (Or.inl rfl)
        (fun _ => rfl) rfl (fun _ => rfl) fun _ => rfl
    · exact hquiet (.next k) c.state (by simp [exec, hcurr]) rfl rfl (Or.inl rfl) (Or.inl (shared_next k))
        (Or.inl (made_next k)) (fun _ => rfl) rfl (fun _ => by rw [role_next]; rfl) fun _ => by rw [role_next]; rfl
  | fallback k curr =>
    rw [hpc] at hquiet hknows
    have hpage : curr ≠ 0 → Page curr := fun hcurr => (h.known curr hcurr (Or.inl (hknows.resolve_left hcurr))).page
    exact hquiet _ _ rfl rfl rfl (Or.inr rfl) (Or.inr (Or.inl (shared_swapped hpage))) (Or.inl (made_swapped k curr))
      (fun _ => rfl) rfl (holders_swapped hpage) (doomed_swapped hpage)
  | discard k new =>
    rw [hpc] at hquiet
    exact hquiet _ _ rfl rfl rfl (Or.inl rfl) (Or.inl (shared_next k)) (Or.inl (made_next k)) (fun _ => rfl) rfl
      (fun _ => by rw [role_next]; rfl) fun _ => by rw [role_next]; rfl
  | readPid k ptr =>
    rw [hpc] at hquiet
    by_cases hgo : ptr ≠ 0 ∧ c.state.procid = pibrPid (c.state.mem ptr).pibr
    · have hgoes := exec_readPid_eq A e k ptr c.state
      rw [if_pos hgo] at hgoes
      exact hquiet _ _ hgoes rfl rfl (Or.inl rfl) (Or.inr (Or.inl rfl)) (Or.inl rfl) (fun _ => rfl) rfl (fun _ => rfl)
        fun _ => rfl
    · have hstops := exec_readPid_eq A e k ptr c.state
      rw [if_neg hgo] at hstops
      exact hquiet _ _ hstops rfl rfl (Or.inl rfl) (Or.inl (shared_next k)) (Or.inl (made_next k)) (fun _ => rfl) rfl
        (fun _ => by rw [role_next]; rfl) fun _ => by rw [role_next]; rfl
  | sample k ptr pid =>
    rw [hpc] at hquiet
    by_cases hgo : c.state.prefixLen = pibrIdx (c.state.mem ptr).pibr
    · exact hquiet (.next k) c.state (by simp [exec, hgo]) rfl rfl (Or.inl rfl) (Or.inl (shared_next k))
        (Or.inl (made_next k)) (fun _ => rfl) rfl (fun _ => by rw [role_next]; rfl) fun _ => by rw [role_next]; rfl
    · exact hquiet (.cas k ptr pid (pibrIdx (c.state.mem ptr).pibr)) c.state (by simp [exec, hgo]) rfl rfl (Or.inl rfl)
        (Or.inr (Or.inl rfl)) (Or.inl rfl) (fun _ => rfl) rfl (fun _ => rfl) fun _ => rfl
  | close k ptr idx =>
    rw [hpc] at hquiet
    by_cases hidx : idx = 0
    · exact h.error (x := .fault) (by rw [hpc]; exact if_pos hidx)
    · exact hquiet _ _ (if_neg hidx) rfl rfl (Or.inl rfl) (Or.inl rfl) (Or.inl rfl) (setBuf_pibr _ _ _) rfl (fun _ => rfl)
        fun _ => rfl
  | write k ptr =>
    rw [hpc] at hquiet
    exact hquiet _ _ rfl rfl rfl (Or.inl rfl) (Or.inl rfl) (Or.inl rfl) (fun _ => rfl) rfl (fun _ => rfl) fun _ => rfl
  | free k ptr =>
    rw [hpc] at hquiet
    exact hquiet _ _ rfl rfl rfl (Or.inl rfl) (Or.inl (shared_next k)) (Or.inl (made_next k)) (fun _ => rfl) rfl
      (fun _ => by rw [role_next]; rfl) fun _ => by rw [role_next]; rfl

theorem Conf.Bounded.step {x : τ × Move} (h : c.Bounded A e) (he : e.Fits) (hA : A.Once)
    (hτ : Fintype.card τ < 2 ^ 12) (hstep : c.step A e x = some c') : c'.Bounded A e := by
  obtain ⟨t, mv⟩ := x
  rcases step_cases hstep with ⟨q, hcall, hidle, rfl⟩ | ⟨rfl, rfl⟩
  · have hq : q.shared = 0 ∧ q.made = 0 ∧ q.Read e ∧ q.role = (c.pc t).role := by
      rcases hcall with rfl | ⟨m, rfl⟩ <;> rw [hidle] <;> exact ⟨rfl, rfl, trivial, rfl⟩
    have hpc : ∀ u, u ≠ t → (c.goto t q).pc u = c.pc u := fun u hu => Function.update_of_ne hu ..
    have hself : (c.goto t q).pc t = q := Function.update_self ..
    have hshared : ∀ a, a ≠ 0 → (c.goto t q).Shared a → c.Shared a := by
      intro a ha hs
      rcases hs with hs | ⟨u, hu⟩
      · exact Or.inl hs
      · by_cases hut : u = t
        · rw [hut, hself, hq.1] at hu
          exact absurd hu.symm ha
        · exact Or.inr ⟨u, hpc u hut ▸ hu⟩
    have hmade : ∀ u a, a ≠ 0 → ((c.goto t q).pc u).made = a → (c.pc u).made = a := by
      intro u a ha hu
      by_cases hut : u = t
      · rw [hut, hself, hq.2.1] at hu
        exact absurd hu.symm ha
      · exact hpc u hut ▸ hu
    have hledger : ∀ a, (c.goto t q).ledger a = c.ledger a := ledger_same _ _ hq.2.2.2 rfl rfl fun _ => rfl
    refine ⟨h.globals, fun u => ?_, fun a ha hk => ?_, fun a ha hs => ?_, fun u a ha hu => ?_⟩
    · by_cases hut : u = t
      · rw [hut, hself]
        exact hq.2.2.1
      · rw [hpc u hut]
        exact h.read u
    · exact h.known a ha (hk.imp (hshared a ha) fun ⟨u, hu⟩ => ⟨u, hmade u a ha hu⟩)
    · rw [hledger]
      exact h.shared a ha (hshared a ha hs)
    · have hprivate := h.made u a ha (hmade u a ha hu)
      exact ⟨fun hs => hprivate.unshared (hshared a ha hs), fun v hv => hprivate.one v (hmade v a ha hv),
        by rw [hledger]; exact hprivate.word, by rw [hledger]; exact hprivate.stored⟩
  · exact h.run he hA hτ

omit [DecidableEq τ] in
/-- `bblog_init` leaves a current buffer with its account, or none. -/
theorem Conf.Started.bounded (he : e.Fits) (h : c.Started A e) : c.Bounded A e := by
  have hinv := h.inv he
  have hknown : ∀ a, a ≠ 0 → (c.Shared a ∨ ∃ t, (c.pc t).made = a) → c.state.procPibr = a := by
    obtain ⟨cntr, mem, rfl⟩ := h
    rintro a ha ((hp | ⟨t, ht⟩) | ⟨t, ht⟩)
    · exact hp
    · exact absurd ht.symm ha
    · exact absurd ht.symm ha
  have hissued : c.state.procPibr ≠ 0 → A.Issued c.state.allocs c.state.procPibr := by
    obtain ⟨cntr, mem, rfl⟩ := h
    exact bblogInit_issued he (prefixOk_init cntr mem) rfl
  have hidle : ∀ t, c.pc t = .idle := by
    obtain ⟨cntr, mem, rfl⟩ := h
    exact fun _ => rfl
  refine ⟨hinv.globals, hinv.read, fun a ha hk => ?_, fun a ha hs => ?_, fun t a ha ht => ?_⟩
  · have hp := hknown a ha hk
    subst hp
    have hlive := (hinv.current ha).1
    exact ⟨(hinv.ledger _ ha).page hlive, hissued ha,
      hinv.globals.used (List.ne_nil_of_mem (List.count_pos_iff.mp hlive))⟩
  · have hp := hknown a ha (Or.inl hs)
    subst hp
    obtain ⟨hlive, -, -, hclosers⟩ := hinv.current ha
    exact Or.inl ((hinv.ledger _ ha).filling hlive hclosers)
  · rw [hidle t] at ht
    exact absurd ht.symm ha

/-- **Writes stay inside the buffer.** In every run of fewer than 4096 threads, in any order of their steps: a thread
whose `fetch_and_add` takes the `memcpy` branch will copy into the buffer whose word it incremented, behind the prefix and
before the room for the end; and where the compare-and-swap of `flush_buffer` succeeds, the index is in the same bounds,
so that the closing braces and the byte behind them are in the buffer. -/
theorem writes_inside {τ : Type*} [Fintype τ] [DecidableEq τ] (A : Allocator) (hA : A.Once) (e : Process) (he : e.Fits)
    (hτ : Fintype.card τ < 4096) (c c' : Conf τ) (hc : Reach (Conf.step A e) (fun _ _ => True) (Conf.Started A e) c)
    (t : τ) (hstep : c.step A e (t, .run) = some c') :
    (∀ m p ptr idx, c.pc t = .add m p → c'.pc t = .copy m ptr idx →
      ptr = p ∧ c.state.prefixLen ≤ idx ∧ idx + m.text.length < loggerEntryMaxPayload - 32) ∧
    ∀ k ptr pid idx, c.pc t = .cas k ptr pid idx → c'.pc t = .close k ptr idx →
      c.state.prefixLen < idx ∧ idx < loggerEntryMaxPayload - 32 ∧ idx - 1 + "\x7d\x7d".length + 1 ≤ pibrBufSize := by
  have h : c.Bounded A e :=
    Reach.inv (I := Conf.Bounded A e) (fun c hc => hc.bounded he) (fun c x c' h _ hs => h.step he hA hτ hs) hc
  obtain rfl := step_run hstep
  constructor
  · intro m p ptr idx hpc hq
    rcases h.exec_add hτ hpc with herr | ⟨hp, hpage, hf, ⟨hfit, hok⟩ | ⟨-, hok⟩⟩
    · rw [run_error (hpc.symm ▸ herr), hpc] at hq
      cases hq
    · rw [run_ok (hpc.symm ▸ hok)] at hq
      simp only [Function.update_self, Pc.copy.injEq, true_and] at hq
      obtain ⟨rfl, rfl⟩ := hq
      have hfew : (c.ledger p).holders < 2 ^ 12 := Nat.lt_of_le_of_lt (holders_le c p) hτ
      have hfound : pibrIdx (c.state.mem p).pibr = _ := hf.fitting hfew hpage hfit.1
      have hprocid := (h.known p hp (Or.inl (Or.inr ⟨t, by rw [hpc]; rfl⟩))).procid
      refine ⟨rfl, ?_, hfit.2⟩
      rw [hfound, h.globals.prefixLen_eq hprocid]
      omega
    · rw [run_ok (hpc.symm ▸ hok)] at hq
      simp at hq
  · intro k ptr pid idx hpc hq
    have hread := h.read t
    rw [hpc] at hread
    by_cases hw : (c.state.mem ptr).pibr = packBuffer ptr pid idx 0
    · obtain ⟨hf, -, hidx⟩ := h.cas_eq he hτ hpc hw
      have hprocid := (h.known ptr hread.1 (Or.inl (Or.inr ⟨t, by rw [hpc]; rfl⟩))).procid
      have hroom := hf.room
      have hne := hread.2.2.2
      have hends : "\x7d\x7d".length = 2 := rfl
      rw [h.globals.prefixLen_eq hprocid, hends, pibrBufSize_eq]
      rw [loggerEntryMaxPayload_eq] at hroom ⊢
      omega
    · have hok : exec A e (c.pc t) c.state = .ok (.cas k ptr pid idx, c.state) := by
        rw [hpc]
        exact if_neg hw
      rw [run_ok hok] at hq
      simp at hq

end Bounded

/-! ## A record and its flush -/

/-- An allocator that hands out one page after the other. -/
def freshPages : Allocator where
  memalign n live :=
    if n + 1 < 2 ^ 20 ∧ (n + 1) * 4096 ∉ live then some ((n + 1) * 4096, ⟨0, fun _ => nul⟩) else none
  page := by
    intro n live a p h
    split_ifs at h with hn
    cases h
    exact ⟨by omega, by omega, by omega⟩
  fresh := by
    intro n live a p h
    split_ifs at h with hn
    cases h
    exact hn.2

theorem freshPages_once : freshPages.Once := by
  intro n live a p n' live' p' h h'
  simp only [freshPages] at h h'
  split_ifs at h h'
  simp only [Option.some.injEq, Prod.mk.injEq] at h h'
  omega

/-- Two threads of a process that has just started. -/
def freshThreads : Conf (Fin 2) :=
  ⟨bblogInit freshPages app (.init 0 fun _ => ⟨0, fun _ => nul⟩), fun _ => .idle, false, fun _ => [], []⟩

/-- A reservation behind another one, and a compare-and-swap that succeeds. -/
theorem record_inside :
    (∃ c c' : Conf (Fin 2), c.step freshPages app (0, .run) = some c' ∧
      c.pc 0 = .add (filler 9 (by decide)) 4096 ∧ c'.pc 0 = .copy (filler 9 (by decide)) 4096 36 ∧
      c.state.prefixLen ≤ 36 ∧ 36 + (filler 9 (by decide)).text.length < loggerEntryMaxPayload - 32) ∧
    ∃ c c' : Conf (Fin 2), c.step freshPages app (0, .run) = some c' ∧
      c.pc 0 = .cas none 4096 7 36 ∧ c'.pc 0 = .close none 4096 36 ∧
      c.state.prefixLen < 36 ∧ 36 < loggerEntryMaxPayload - 32 := by
  have hstarted : freshThreads.Started freshPages app := ⟨0, _, rfl⟩
  have hstep : ∀ c : Conf (Fin 2), c.killed = false → c.pc 0 ≠ .idle →
      c.step freshPages app (0, .run) = some (c.run freshPages app 0) := by
    intro c hk hpc
    simp [Conf.step, hk, hpc]
  constructor
  · have hrun : (runAll (Conf.step freshPages app) (fun _ _ => True) freshThreads
        ((1, .blog (filler 4 (by decide))) :: steps 1 2 ++ (0, .blog (filler 9 (by decide))) :: steps 0 1)).any
        (fun c => c.killed = false ∧ c.pc 0 = .add (filler 9 (by decide)) 4096 ∧
          (c.run freshPages app 0).pc 0 = .copy (filler 9 (by decide)) 4096 36) = true := by decide +kernel
    obtain ⟨c, hc, hp⟩ := Reach.of_runAll hstarted _ _ hrun
    obtain ⟨hk, hadd, hcopy⟩ := of_decide_eq_true hp
    have hgo := hstep c hk (by rw [hadd]; exact Pc.noConfusion)
    obtain ⟨-, hlow, hhigh⟩ :=
      (writes_inside freshPages freshPages_once app app_fits (by decide) c _ hc 0 hgo).1 _ _ _ _ hadd hcopy
    exact ⟨c, _, hgo, hadd, hcopy, hlow, hhigh⟩
  · have hrun : (runAll (Conf.step freshPages app) (fun _ _ => True) freshThreads
        ((1, .blog (filler 4 (by decide))) :: steps 1 4 ++ (0, .flush) :: steps 0 6)).any
        (fun c => c.killed = false ∧ c.pc 0 = .cas none 4096 7 36 ∧
          (c.run freshPages app 0).pc 0 = .close none 4096 36) = true := by decide +kernel
    obtain ⟨c, hc, hp⟩ := Reach.of_runAll hstarted _ _ hrun
    obtain ⟨hk, hcas, hclose⟩ := of_decide_eq_true hp
    have hgo := hstep c hk (by rw [hcas]; exact Pc.noConfusion)
    obtain ⟨hlow, hhigh, -⟩ :=
      (writes_inside freshPages freshPages_once app app_fits (by decide) c _ hc 0 hgo).2 _ _ _ _ hcas hclose
    exact ⟨c, _, hgo, hcas, hclose, hlow, hhigh⟩

end Cosmost.Bblog
