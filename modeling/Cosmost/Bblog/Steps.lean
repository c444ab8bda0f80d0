import Cosmost.Bblog.Accounts

/-!
# What one step does to the accounts

`exec_cameFrom` says where a thread came from, `noteTaken_cases` what a step adds to the records taken. Every sound step
of a thread is a step in the life of each buffer (`Conf.Inv.ledger_step`), by one lemma for each program point.
-/

namespace Cosmost.Bblog

open Cosmost.Lib

section Step

variable {τ : Type*} [Fintype τ] {A : Allocator} {e : Process} {c c' : Conf τ} {t : τ}
  {k : Option Record} {m : Record} {p ptr curr new pid idx : Nat}

/-! ## The steps that change a word -/

section Words

variable {q : Pc} {s s' : State}

theorem exec_add_ok (h : exec A e (.add m p) s = .ok (q, s')) : s' = s.setWord p ((s.mem p).pibr + m.incr) ∧
    (q = .copy m (pibrPtr (s.mem p).pibr) (pibrIdx (s.mem p).pibr) ∨ q = .rollback m (pibrPtr (s.mem p).pibr)) := by
  by_cases hp : p = 0
  · simp [exec, fetchAdd, hp, bind, Except.bind] at h
  · by_cases hptr : pibrPtr (s.mem p).pibr = 0
    · simp [exec, fetchAdd, hp, hptr, bind, Except.bind] at h
    · by_cases hfit : Fitting e m (s.mem p).pibr
      · simp only [exec, fetchAdd, hp, hptr, hfit, bind, Except.bind, ↓reduceIte, Except.ok.injEq, Prod.mk.injEq] at h
        exact ⟨h.2.symm, Or.inl h.1.symm⟩
      · simp only [exec, fetchAdd, hp, hptr, hfit, bind, Except.bind, ↓reduceIte, Except.ok.injEq, Prod.mk.injEq] at h
        exact ⟨h.2.symm, Or.inr h.1.symm⟩

/-- `fetch_and_sub` of a reservation that fit. -/
theorem exec_release_eq (A : Allocator) (e : Process) (ptr : Nat) (s : State) : exec A e (.release ptr) s =
    if ptr = 0 then .error .fault else .ok (.idle, s.setWord ptr ((s.mem ptr).pibr - 1)) := by
  simp only [exec, fetchSub]
  split_ifs <;> rfl

/-- Of one that did not. -/
theorem exec_rollback_eq (A : Allocator) (e : Process) (m : Record) (ptr : Nat) (s : State) :
    exec A e (.rollback m ptr) s =
      if ptr = 0 then .error .fault else .ok (.check (some m) ptr, s.setWord ptr ((s.mem ptr).pibr - m.incr)) := by
  simp only [exec, fetchSub]
  split_ifs <;> rfl

/-- `flush_buffer` goes on with a buffer that the process of `procid` made. -/
theorem exec_readPid_eq (A : Allocator) (e : Process) (k : Option Record) (ptr : Nat) (s : State) :
    exec A e (.readPid k ptr) s = .ok (if ptr ≠ 0 ∧ s.procid = pibrPid (s.mem ptr).pibr
      then .sample k ptr (pibrPid (s.mem ptr).pibr) else .next k, s) := by
  by_cases hptr : ptr = 0 <;> simp [exec, hptr]

theorem exec_release_ok (h : exec A e (.release ptr) s = .ok (q, s')) :
    s' = s.setWord ptr ((s.mem ptr).pibr - 1) ∧ q = .idle := by
  rw [exec_release_eq] at h
  split_ifs at h
  cases h
  exact ⟨rfl, rfl⟩

theorem exec_rollback_ok (h : exec A e (.rollback m ptr) s = .ok (q, s')) :
    s' = s.setWord ptr ((s.mem ptr).pibr - m.incr) ∧ q = .check (some m) ptr := by
  rw [exec_rollback_eq] at h
  split_ifs at h
  cases h
  exact ⟨rfl, rfl⟩

/-- Where a thread came from that is to reserve or to copy, has read a word, or closes or writes a buffer. -/
def CameFrom (s : State) (x : Pc) : Pc → Prop
  | .add m p => x = .load m ∧ p = s.procPibr
  | .copy m ptr idx => ∃ p, x = .add m p ∧ ptr = pibrPtr (s.mem p).pibr ∧ idx = pibrIdx (s.mem p).pibr
  | .sample k ptr pid => x = .readPid k ptr ∧ ptr ≠ 0 ∧ s.procid = pid
  | .cas k ptr pid idx =>
    (x = .sample k ptr pid ∧ s.prefixLen ≠ idx ∧ idx = pibrIdx (s.mem ptr).pibr) ∨ x = .cas k ptr pid idx
  | .close k ptr idx => ∃ pid, x = .cas k ptr pid idx ∧ (s.mem ptr).pibr = packBuffer ptr pid idx 0
  | .write k ptr => ∃ idx, x = .close k ptr idx ∧ 0 < idx
  | _ => True

theorem cameFrom_next (s : State) (x : Pc) (k : Option Record) : CameFrom s x (.next k) := by
  cases k <;> trivial

theorem cameFrom_swapped (s : State) (x : Pc) (k : Option Record) (curr : Nat) : CameFrom s x (.swapped k curr) := by
  unfold Pc.swapped
  split_ifs
  · trivial
  · exact cameFrom_next s x k

theorem exec_cameFrom {x : Pc} (h : exec A e x s = .ok (q, s')) : CameFrom s x q := by
  cases x with
  | load m => cases h; exact ⟨rfl, rfl⟩
  | add m p =>
    obtain ⟨-, rfl | rfl⟩ := exec_add_ok h
    · exact ⟨p, rfl, rfl, rfl⟩
    · trivial
  | release ptr => obtain ⟨-, rfl⟩ := exec_release_ok h; trivial
  | rollback m ptr => obtain ⟨-, rfl⟩ := exec_rollback_ok h; trivial
  | check k curr =>
    cases h
    split_ifs
    · trivial
    · exact cameFrom_next _ _ k
  | alloc k curr =>
    cases h
    split_ifs <;> trivial
  | fallback k curr => cases h; exact cameFrom_swapped _ _ k curr
  | install k curr new =>
    simp only [exec] at h
    split_ifs at h <;> cases h
    · exact cameFrom_swapped _ _ k curr
    · trivial
  | discard k new => cases h; exact cameFrom_next _ _ k
  | readPid k ptr =>
    simp only [exec] at h
    split_ifs at h with hptr hpid <;> cases h
    · exact cameFrom_next _ _ k
    · exact ⟨rfl, hptr, hpid⟩
    · exact cameFrom_next _ _ k
  | sample k ptr pid =>
    simp only [exec] at h
    split_ifs at h with hidx <;> cases h
    · exact cameFrom_next _ _ k
    · exact Or.inl ⟨rfl, hidx, rfl⟩
  | cas k ptr pid idx =>
    simp only [exec] at h
    split_ifs at h with hw <;> cases h
    · exact ⟨pid, rfl, hw⟩
    · exact Or.inr rfl
  | close k ptr idx =>
    simp only [exec] at h
    split_ifs at h with hidx
    cases h
    exact ⟨idx, rfl, by omega⟩
  | free k ptr => cases h; exact cameFrom_next _ _ k
  | _ => cases h; trivial

/-- The records taken for a buffer change when one more is, and when the buffer is allocated. -/
theorem noteTaken_cases (taken : Nat → List Record) (x q : Pc) (a : Nat) :
    noteTaken taken x q a = taken a ∨
    (∃ m p m' idx, x = .add m p ∧ q = .copy m' a idx ∧ noteTaken taken x q a = taken a ++ [m]) ∨
    ∃ k curr k' curr', x = .alloc k curr ∧ q = .install k' curr' a ∧ noteTaken taken x q a = [] := by
  unfold noteTaken
  split
  case h_1 m p m' ptr idx =>
    by_cases hptr : a = ptr
    · subst hptr
      exact Or.inr (Or.inl ⟨m, p, m', idx, rfl, rfl, Function.update_self ..⟩)
    · exact Or.inl (Function.update_of_ne hptr ..)
  case h_2 k curr k' curr' new =>
    by_cases hnew : a = new
    · subst hnew
      exact Or.inr (Or.inr ⟨k, curr, k', curr', rfl, rfl, Function.update_self ..⟩)
    · exact Or.inl (Function.update_of_ne hnew ..)
  case h_3 => exact Or.inl rfl

end Words

/-! ## The steps that look at shared words -/

/-- A thread that is something to a buffer counts. -/
theorem role_le (f : Role → Nat) (c : Conf τ) (t : τ) : f (c.pc t).role ≤ total f c.roles := le_total f c.roles t

theorem Conf.Inv.flushed_live (h : c.Inv e) (hp : ptr ≠ 0) (hr : (c.pc t).role = .flusher ptr) :
    0 < (c.ledger ptr).flushers ∧ 0 < (c.ledger ptr).live ∧ (c.ledger ptr).makers = 0 ∧ (c.ledger ptr).closers = 0 ∧
      (c.ledger ptr).current = 0 := by
  have hle := role_le (Role.flushers ptr) c t
  rw [hr, Role.flushers, if_pos rfl] at hle
  have hone := (h.ledger ptr hp).one
  have honce := (h.ledger ptr hp).once
  have hflushers : 0 < (c.ledger ptr).flushers := hle
  refine ⟨hflushers, ?_, ?_, ?_, ?_⟩ <;> omega

/-- **A successful compare-and-swap of a flusher**: nobody holds the buffer, and the index is where the records
end. -/
theorem Conf.Inv.cas_eq (h : c.Inv e) (he : e.Fits) (hpc : c.pc t = .cas k ptr pid idx)
    (hw : (c.state.mem ptr).pibr = packBuffer ptr pid idx 0) :
    (c.ledger ptr).holders = 0 ∧ idx = (prefixText e).length + (c.ledger ptr).stored := by
  have hread := h.read t
  rw [hpc] at hread
  obtain ⟨hptr, rfl, hidx, -⟩ := hread
  have hok := h.ledger ptr hptr
  obtain ⟨-, hlive, -, hclosers, -⟩ := h.flushed_live hptr (t := t) (by rw [hpc]; rfl)
  exact (hok.filling hlive hclosers).cas_eq hok.few hok.short he.pid (hok.page hlive) hidx hw

/-- A buffer that a `fetch_and_add` of a sound move reserves from. -/
structure Conf.Open (c : Conf τ) (p : Nat) : Prop where
  pos : p ≠ 0
  live : 0 < (c.ledger p).live
  makers : (c.ledger p).makers = 0
  closers : (c.ledger p).closers = 0
  few : (c.ledger p).holders + 1 < 2 ^ 12

/-- `fetch_and_add` on a word with the address of its buffer. -/
theorem exec_add_of {s : State} (A : Allocator) (e : Process) (m : Record) (hp : p ≠ 0)
    (hptr : pibrPtr (s.mem p).pibr = p) :
    (Fitting e m (s.mem p).pibr ∧ exec A e (.add m p) s =
        .ok (.copy m p (pibrIdx (s.mem p).pibr), s.setWord p ((s.mem p).pibr + m.incr))) ∨
      ¬ Fitting e m (s.mem p).pibr ∧ exec A e (.add m p) s =
        .ok (.rollback m p, s.setWord p ((s.mem p).pibr + m.incr)) := by
  by_cases hfit : Fitting e m (s.mem p).pibr
  · exact Or.inl ⟨hfit, by simp [exec, fetchAdd, hp, bind, Except.bind, hptr, hfit]⟩
  · exact Or.inr ⟨hfit, by simp [exec, fetchAdd, hp, bind, Except.bind, hptr, hfit]⟩

/-- Through a null pointer, or on a word that was taken away, it faults. -/
theorem exec_add_fault {s : State} (A : Allocator) (e : Process) (m : Record) (h : p = 0 ∨ (s.mem p).pibr = 0) :
    exec A e (.add m p) s = .error .fault := by
  have hptr : pibrPtr 0#64 = 0 := by decide
  by_cases hp : p = 0
  · simp [exec, fetchAdd, hp, bind, Except.bind]
  · simp [exec, fetchAdd, hp, bind, Except.bind, h.resolve_left hp, hptr]

/-- `fetch_and_add` in a sound move: through a null pointer, or on an open buffer, where the record fits or not. -/
theorem Conf.Inv.exec_add (h : c.Inv e) (hs : c.SoundAt (.add m p)) :
    (∃ x, exec A e (.add m p) c.state = .error x) ∨
    c.Open p ∧ (Fitting e m (c.state.mem p).pibr ∧ exec A e (.add m p) c.state =
          .ok (.copy m p (pibrIdx (c.state.mem p).pibr), c.state.setWord p ((c.state.mem p).pibr + m.incr)) ∨
        ¬ Fitting e m (c.state.mem p).pibr ∧ exec A e (.add m p) c.state =
          .ok (.rollback m p, c.state.setWord p ((c.state.mem p).pibr + m.incr))) := by
  by_cases hp : p = 0
  · exact Or.inl ⟨.fault, exec_add_fault A e m (Or.inl hp)⟩
  · obtain ⟨hlive, hmakers, hfew⟩ := hs.resolve_left hp
    have hok := h.ledger p hp
    by_cases hclosers : (c.ledger p).closers = 0
    · have hptr : pibrPtr (c.state.mem p).pibr = p := pibrPtr_of (hok.word hlive hclosers) (hok.page hlive) hok.few
      exact Or.inr ⟨⟨hp, hlive, hmakers, hclosers, hfew⟩, exec_add_of A e m hp hptr⟩
    · -- the word is gone
      exact Or.inl ⟨.fault, exec_add_fault A e m (Or.inr (hok.closed (by omega)))⟩

/-- `alloc_buffer`: no answer, or a new buffer. -/
theorem Globals.exec_alloc {s : State} (h : Globals e s) (he : e.Fits) (A : Allocator) (k : Option Record)
    (curr : Nat) :
    (∃ n, exec A e (.alloc k curr) s = .ok (.fallback k curr, { s with allocs := n })) ∨
    ∃ a s', Fresh e s a s' ∧ exec A e (.alloc k curr) s = .ok (.install k curr a, s') := by
  cases hA : A.memalign s.allocs s.live with
  | none => exact Or.inl ⟨_, by simp [exec, allocBuffer, hA]; rfl⟩
  | some x =>
    obtain ⟨a, s', heq, hf⟩ := allocBuffer_fresh he h.toPrefixOk (by rw [hA]; rfl)
    have ha : a ≠ 0 := by have := hf.page.1; omega
    exact Or.inr ⟨a, s', hf, by simp [exec, heq, ha]⟩

/-- After a swap the old buffer is flushed, if there is one. -/
theorem swapped_role (hpage : curr ≠ 0 → Page curr) :
    (Pc.swapped k curr).role = if curr = 0 then .outside else .flusher curr := by
  unfold Pc.swapped
  by_cases hcurr : curr = 0
  · rw [if_neg (not_not.mpr hcurr), if_pos hcurr, role_next]
  · rw [if_pos hcurr, if_neg hcurr, pibrPtr_page (hpage hcurr)]
    rfl

/-- The buffer that `proc_pibr` points to is in no thread's charge. -/
theorem Conf.Inv.current (h : c.Inv e) (hp : c.state.procPibr ≠ 0) :
    0 < (c.ledger c.state.procPibr).live ∧ (c.ledger c.state.procPibr).flushers = 0 ∧
      (c.ledger c.state.procPibr).makers = 0 ∧ (c.ledger c.state.procPibr).closers = 0 := by
  have hone := (h.ledger _ hp).one
  have honce := (h.ledger _ hp).once
  have hcurrent : (c.ledger c.state.procPibr).current = 1 := pointsTo_self _
  refine ⟨?_, ?_, ?_, ?_⟩ <;> omega

/-! ## Every step is a step in the life of each buffer -/

variable [DecidableEq τ]

/-- The accounts after a step. -/
theorem ledger_run {q : Pc} {s : State} (h : exec A e (c.pc t) c.state = .ok (q, s)) (a : Nat) :
    (c.run A e t).ledger a = ⟨s.live.count a, pointsTo s.procPibr a, (s.mem a).pibr,
      textsLength (noteTaken c.taken (c.pc t) q a),
      (c.ledger a).holders + q.role.holders a - (c.pc t).role.holders a,
      (c.ledger a).doomed + q.role.doomed a - (c.pc t).role.doomed a,
      (c.ledger a).flushers + q.role.flushers a - (c.pc t).role.flushers a,
      (c.ledger a).makers + q.role.makers a - (c.pc t).role.makers a,
      (c.ledger a).closers + q.role.closers a - (c.pc t).role.closers a⟩ := by
  rw [run_ok h, ledger_moved]

/-- A step between two points with one role that touches no word leaves the accounts as they are. -/
theorem step_same {q : Pc} {s : State} (h : exec A e (c.pc t) c.state = .ok (q, s)) (hrole : q.role = (c.pc t).role)
    (hlive : s.live = c.state.live) (hcurrent : s.procPibr = c.state.procPibr)
    (hword : ∀ a, (s.mem a).pibr = (c.state.mem a).pibr) (htaken : noteTaken c.taken (c.pc t) q = c.taken) (a : Nat) :
    Ledger.Step e.pid (prefixText e).length a (c.ledger a) ((c.run A e t).ledger a) := by
  rw [run_ok h, htaken, ledger_same _ _ hrole hlive hcurrent hword]
  exact .stay _

theorem step_add (h : c.Inv e) (hpc : c.pc t = .add m p) (hs : c.SoundAt (.add m p)) (a : Nat) :
    Ledger.Step e.pid (prefixText e).length a (c.ledger a) ((c.run A e t).ledger a) := by
  rcases h.exec_add (A := A) hs with ⟨x, herr⟩ | ⟨hopen, ⟨hfit, hok⟩ | ⟨hfit, hok⟩⟩
  · rw [run_error (hpc.symm ▸ herr)]
    exact .stay _
  · rw [ledger_run (t := t) (hpc.symm ▸ hok) a, hpc]
    by_cases hap : p = a
    · subst hap
      convert Ledger.Step.take (length_text_lt m) hopen.live hopen.makers hopen.closers hopen.few hfit.1 hfit.2 using 1
      simp [noteTaken, Pc.role, Conf.ledger, State.setWord, Record.incr]
    · convert Ledger.Step.stay (c.ledger a) using 1
      simp [noteTaken, Pc.role, Conf.ledger, State.setWord, hap, Ne.symm hap]
  · rw [ledger_run (t := t) (hpc.symm ▸ hok) a, hpc]
    by_cases hap : p = a
    · subst hap
      convert Ledger.Step.miss (length_text_lt m) hopen.live hopen.makers hopen.closers hopen.few using 1
      simp [noteTaken, Pc.role, Conf.ledger, State.setWord, Record.incr]
    · convert Ledger.Step.stay (c.ledger a) using 1
      simp [noteTaken, Pc.role, Conf.ledger, State.setWord, hap, Ne.symm hap]

/-- `fetch_and_sub`: a reservation is given back. -/
theorem step_drop {q : Pc} {size : Nat} (hrole : (c.pc t).role = .holder ptr size) (hq : q.role = .outside)
    (hsize : size < bufferSize) (htaken : noteTaken c.taken (c.pc t) q = c.taken)
    (h : exec A e (c.pc t) c.state =
      .ok (q, c.state.setWord ptr ((c.state.mem ptr).pibr - packBuffer 0 0 size 1))) (a : Nat) :
    Ledger.Step e.pid (prefixText e).length a (c.ledger a) ((c.run A e t).ledger a) := by
  rw [ledger_run h a, htaken, hrole, hq]
  by_cases hap : ptr = a
  · subst hap
    have hheld := role_le (Role.holders ptr) c t
    have hdoomed := role_le (Role.doomed ptr) c t
    rw [hrole] at hheld hdoomed
    simp only [Role.holders, Role.doomed, ↓reduceIte] at hheld hdoomed
    convert Ledger.Step.drop (l := c.ledger ptr) hheld hdoomed hsize using 1
    simp [Conf.ledger, State.setWord]
  · convert Ledger.Step.stay (c.ledger a) using 1
    simp [Conf.ledger, State.setWord, hap, Ne.symm hap]

theorem step_alloc (h : c.Inv e) (he : e.Fits) (hpc : c.pc t = .alloc k curr) (a : Nat) :
    Ledger.Step e.pid (prefixText e).length a (c.ledger a) ((c.run A e t).ledger a) := by
  rcases h.globals.exec_alloc he A k curr with ⟨n, hok⟩ | ⟨b, s, hf, hok⟩
  · have hexec : exec A e (c.pc t) c.state = .ok (.fallback k curr, { c.state with allocs := n }) := by rw [hpc, hok]
    exact step_same hexec (by rw [hpc]; rfl) rfl rfl (fun _ => rfl) (by rw [hpc]; rfl) a
  · rw [ledger_run (t := t) (hpc.symm ▸ hok) a, hpc]
    by_cases hab : b = a
    · subst hab
      have hfree : (c.ledger b).live = 0 := List.count_eq_zero.mpr hf.fresh
      have hlen : s.prefixLen = (prefixText e).length := by rw [hf.prefixLen, h.globals.freshPrefix_eq]
      convert Ledger.Step.create hfree hf.page using 1
      simp [noteTaken, Pc.role, Conf.ledger, hf.live, hf.word, hf.procPibr, hlen, List.count_eq_zero.mpr hf.fresh]
    · convert Ledger.Step.stay (c.ledger a) using 1
      simp [noteTaken, Pc.role, Conf.ledger, hf.live, hf.procPibr, hf.other a (Ne.symm hab), hab, Ne.symm hab]

/-- `proc_pibr` becomes null, and the old buffer is flushed. -/
theorem step_fallback (h : c.Inv e) (hpc : c.pc t = .fallback k curr) (hs : c.SoundAt (.fallback k curr)) {a : Nat}
    (ha : a ≠ 0) : Ledger.Step e.pid (prefixText e).length a (c.ledger a) ((c.run A e t).ledger a) := by
  have hpage : curr ≠ 0 → Page curr := fun hcurr => (h.ledger curr hcurr).page (hs.resolve_left hcurr).1
  have hok : exec A e (c.pc t) c.state = .ok (Pc.swapped k curr, { c.state with procPibr := 0 }) := by rw [hpc]; rfl
  rw [ledger_run hok a, hpc, swapped_role hpage]
  by_cases hcurr : curr = a
  · subst hcurr
    obtain ⟨hlive, hflushers, hmakers, hclosers⟩ := hs.resolve_left ha
    convert Ledger.Step.retire hlive hflushers hmakers hclosers using 1
    simp [noteTaken, Pc.role, Conf.ledger, ha, pointsTo_of_ne (Ne.symm ha)]
  · convert Ledger.Step.clear (c.ledger a) using 1
    by_cases hcurr0 : curr = 0
    · simp [noteTaken, Pc.role, Conf.ledger, hcurr0, pointsTo_of_ne (Ne.symm ha)]
    · simp [noteTaken, Pc.role, Conf.ledger, hcurr0, hcurr, pointsTo_of_ne (Ne.symm ha)]

theorem step_install (h : c.Inv e) (hpc : c.pc t = .install k curr new) {a : Nat} (ha : a ≠ 0) :
    Ledger.Step e.pid (prefixText e).length a (c.ledger a) ((c.run A e t).ledger a) := by
  by_cases hcurr : c.state.procPibr = curr
  · have hpage : curr ≠ 0 → Page curr := by
      intro hpos
      subst hcurr
      exact (h.ledger _ hpos).page (h.current hpos).1
    have hok : exec A e (c.pc t) c.state = .ok (Pc.swapped k curr, { c.state with procPibr := new }) := by
      rw [hpc]
      simp [exec, hcurr]
    have hmaker := role_le (Role.makers a) c t
    rw [ledger_run hok a, hpc, swapped_role hpage]
    rw [hpc] at hmaker
    by_cases hnew : new = a
    · subst hnew
      have hmakers : 0 < (c.ledger new).makers := by
        simp only [Pc.role, Role.makers, ↓reduceIte] at hmaker
        exact hmaker
      have hne : curr ≠ new := by
        rintro rfl
        subst hcurr
        have := (h.current ha).2.2.1
        omega
      convert Ledger.Step.install hmakers using 1
      by_cases hcurr0 : curr = 0
      · simp [noteTaken, Pc.role, Conf.ledger, hcurr0]
      · simp [noteTaken, Pc.role, Conf.ledger, hcurr0, hne]
    · by_cases hca : curr = a
      · subst hcurr hca
        obtain ⟨hlive, hflushers, hmakers, hclosers⟩ := h.current ha
        convert Ledger.Step.retire hlive hflushers hmakers hclosers using 1
        simp [noteTaken, Pc.role, Conf.ledger, ha, hnew, pointsTo_of_ne hnew]
      · convert Ledger.Step.stay (c.ledger a) using 1
        by_cases hcurr0 : curr = 0
        · simp [noteTaken, Pc.role, Conf.ledger, hcurr0, hnew, hcurr, pointsTo_of_ne hnew, pointsTo_of_ne (Ne.symm ha)]
        · simp [noteTaken, Pc.role, Conf.ledger, hcurr0, hca, hnew, hcurr, pointsTo_of_ne hnew, pointsTo_of_ne hca]
  · have hok : exec A e (c.pc t) c.state = .ok (.discard k new, c.state) := by
      rw [hpc]
      simp [exec, hcurr]
    exact step_same hok (by rw [hpc]; rfl) rfl rfl (fun _ => rfl) (by rw [hpc]; rfl) a

/-- A flusher finds nothing to flush. -/
theorem step_abandon {q : Pc} (h : exec A e (c.pc t) c.state = .ok (q, c.state)) (hrole : (c.pc t).role = .flusher ptr)
    (hq : q.role = .outside) (htaken : noteTaken c.taken (c.pc t) q = c.taken) (a : Nat) :
    Ledger.Step e.pid (prefixText e).length a (c.ledger a) ((c.run A e t).ledger a) := by
  rw [ledger_run h a, htaken, hrole, hq]
  by_cases hap : ptr = a
  · subst hap
    have hflushers := role_le (Role.flushers ptr) c t
    rw [hrole, Role.flushers, if_pos rfl] at hflushers
    convert Ledger.Step.abandon (l := c.ledger ptr) hflushers using 1
    simp [Conf.ledger]
  · convert Ledger.Step.stay (c.ledger a) using 1
    simp [Conf.ledger, hap]

theorem step_cas (h : c.Inv e) (he : e.Fits) (hpc : c.pc t = .cas k ptr pid idx) (a : Nat) :
    Ledger.Step e.pid (prefixText e).length a (c.ledger a) ((c.run A e t).ledger a) := by
  have hread := h.read t
  rw [hpc] at hread
  obtain ⟨hptr, -⟩ := hread
  obtain ⟨hflushers, -⟩ := h.flushed_live hptr (t := t) (by rw [hpc]; rfl)
  by_cases hw : (c.state.mem ptr).pibr = packBuffer ptr pid idx 0
  · have hok : exec A e (c.pc t) c.state = .ok (.close k ptr idx, c.state.setWord ptr 0) := by
      rw [hpc]
      exact if_pos hw
    rw [ledger_run hok a, hpc]
    by_cases hap : ptr = a
    · subst hap
      convert Ledger.Step.detach hflushers (h.cas_eq he hpc hw).1 using 1
      simp [noteTaken, Pc.role, Conf.ledger, State.setWord]
    · convert Ledger.Step.stay (c.ledger a) using 1
      simp [noteTaken, Pc.role, Conf.ledger, State.setWord, hap, Ne.symm hap]
  · have hok : exec A e (c.pc t) c.state = .ok (.cas k ptr pid idx, c.state) := by
      rw [hpc]
      exact if_neg hw
    exact step_same hok (by rw [hpc]) rfl rfl (fun _ => rfl) (by rw [hpc]; rfl) a

/-- `free` by the thread that made the buffer, or that closed it. -/
theorem step_free {q : Pc} (h : exec A e (c.pc t) c.state = .ok (q, c.state.free ptr))
    (hrole : (c.pc t).role = .maker ptr ∨ (c.pc t).role = .closer ptr) (hq : q.role = .outside)
    (htaken : noteTaken c.taken (c.pc t) q = c.taken) (a : Nat) :
    Ledger.Step e.pid (prefixText e).length a (c.ledger a) ((c.run A e t).ledger a) := by
  rw [ledger_run h a, htaken, hq]
  by_cases hap : ptr = a
  · subst hap
    rcases hrole with hrole | hrole
    · have hmakers := role_le (Role.makers ptr) c t
      rw [hrole, Role.makers, if_pos rfl] at hmakers
      convert Ledger.Step.discard (l := c.ledger ptr) hmakers using 1
      simp [Conf.ledger, State.free, hrole]
    · have hclosers := role_le (Role.closers ptr) c t
      rw [hrole, Role.closers, if_pos rfl] at hclosers
      convert Ledger.Step.destroy (l := c.ledger ptr) hclosers using 1
      simp [Conf.ledger, State.free, hrole]
  · convert Ledger.Step.stay (c.ledger a) using 1
    have hcount : (c.state.live.erase ptr).count a = c.state.live.count a := List.count_erase_of_ne (Ne.symm hap)
    rcases hrole with hrole | hrole <;> simp [Conf.ledger, State.free, hrole, hap, hcount]

/-- Writing a text leaves the words. -/
theorem setBuf_pibr (s : State) (p : Nat) (b : Bytes) (a : Nat) : ((s.setBuf p b).mem a).pibr = (s.mem a).pibr := by
  by_cases h : a = p
  · subst h
    rw [setBuf_mem_self]
  · rw [setBuf_mem_of_ne _ _ _ h]

theorem step_release (hpc : c.pc t = .release ptr) (a : Nat) :
    Ledger.Step e.pid (prefixText e).length a (c.ledger a) ((c.run A e t).ledger a) := by
  by_cases hptr : ptr = 0
  · rw [run_error (by rw [hpc, exec_release_eq, if_pos hptr])]
    exact .stay _
  · have hone : packBuffer 0 0 0 1 = 1 := by decide
    have hrole : (c.pc t).role = .holder ptr 0 := by rw [hpc]; rfl
    refine step_drop hrole (role_next none) (by decide) (by rw [hpc]; rfl) ?_ a
    rw [hpc, hone, exec_release_eq, if_neg hptr]
    rfl

theorem step_rollback (hpc : c.pc t = .rollback m ptr) (a : Nat) :
    Ledger.Step e.pid (prefixText e).length a (c.ledger a) ((c.run A e t).ledger a) := by
  by_cases hptr : ptr = 0
  · rw [run_error (by rw [hpc, exec_rollback_eq, if_pos hptr])]
    exact .stay _
  · have hok : exec A e (c.pc t) c.state =
        .ok (.check (some m) ptr, c.state.setWord ptr ((c.state.mem ptr).pibr - packBuffer 0 0 m.text.length 1)) := by
      rw [hpc, exec_rollback_eq, if_neg hptr]
      rfl
    exact step_drop (by rw [hpc]; rfl) rfl (length_text_lt m) (by rw [hpc]; rfl) hok a

/-- `flush_buffer` looks at the word. -/
theorem step_readPid (hpc : c.pc t = .readPid k ptr) (a : Nat) :
    Ledger.Step e.pid (prefixText e).length a (c.ledger a) ((c.run A e t).ledger a) := by
  by_cases hgo : ptr ≠ 0 ∧ c.state.procid = pibrPid (c.state.mem ptr).pibr
  · have hok : exec A e (c.pc t) c.state = .ok (.sample k ptr (pibrPid (c.state.mem ptr).pibr), c.state) := by
      rw [hpc, exec_readPid_eq, if_pos hgo]
    exact step_same hok (by rw [hpc]; rfl) rfl rfl (fun _ => rfl) (by rw [hpc]; rfl) a
  · have hok : exec A e (c.pc t) c.state = .ok (.next k, c.state) := by
      rw [hpc, exec_readPid_eq, if_neg hgo]
    exact step_abandon hok (by rw [hpc]; rfl) (role_next k) (by rw [hpc]; rfl) a

theorem step_sample (hpc : c.pc t = .sample k ptr pid) (a : Nat) :
    Ledger.Step e.pid (prefixText e).length a (c.ledger a) ((c.run A e t).ledger a) := by
  by_cases hgo : c.state.prefixLen = pibrIdx (c.state.mem ptr).pibr
  · have hok : exec A e (c.pc t) c.state = .ok (.next k, c.state) := by
      rw [hpc]
      simp [exec, hgo]
    exact step_abandon hok (by rw [hpc]; rfl) (role_next k) (by rw [hpc]; rfl) a
  · have hok : exec A e (c.pc t) c.state = .ok (.cas k ptr pid (pibrIdx (c.state.mem ptr).pibr), c.state) := by
      rw [hpc]
      simp [exec, hgo]
    exact step_same hok (by rw [hpc]; rfl) rfl rfl (fun _ => rfl) (by rw [hpc]; rfl) a

theorem step_close (hpc : c.pc t = .close k ptr idx) (a : Nat) :
    Ledger.Step e.pid (prefixText e).length a (c.ledger a) ((c.run A e t).ledger a) := by
  by_cases hidx : idx = 0
  · have herr : exec A e (c.pc t) c.state = .error .fault := by
      rw [hpc]
      exact if_pos hidx
    rw [run_error herr]
    exact .stay _
  · have hok : exec A e (c.pc t) c.state = .ok (.write k ptr,
        c.state.setBuf ptr (strcpy (c.state.mem ptr).buf (idx - 1) "\x7d\x7d".toList)) := by
      rw [hpc]
      exact if_neg hidx
    exact step_same hok (by rw [hpc]; rfl) rfl rfl (setBuf_pibr _ _ _) (by rw [hpc]; rfl) a

/-- **A sound step of a thread is a step in the life of each buffer.** -/
theorem Conf.Inv.ledger_step (h : c.Inv e) (he : e.Fits) (hs : c.SoundAt (c.pc t)) {a : Nat} (ha : a ≠ 0) :
    Ledger.Step e.pid (prefixText e).length a (c.ledger a) ((c.run A e t).ledger a) := by
  cases hpc : c.pc t with
  | idle => exact step_same (by rw [hpc]; rfl) (by rw [hpc]) rfl rfl (fun _ => rfl) (by rw [hpc]; rfl) a
  | load m => exact step_same (by rw [hpc]; rfl) (by rw [hpc]; rfl) rfl rfl (fun _ => rfl) (by rw [hpc]; rfl) a
  | add m p => exact step_add h hpc (hpc ▸ hs) a
  | copy m ptr idx =>
    have hok : exec A e (c.pc t) c.state = .ok (.release ptr,
        (c.state.setBuf ptr (blit (c.state.mem ptr).buf idx m.text)).emit (.stored ptr idx m.text)) := by rw [hpc]; rfl
    exact step_same hok (by rw [hpc]; rfl) rfl rfl (setBuf_pibr _ _ _) (by rw [hpc]; rfl) a
  | release ptr => exact step_release hpc a
  | rollback m ptr => exact step_rollback hpc a
  | loadFlush => exact step_same (by rw [hpc]; rfl) (by rw [hpc]; rfl) rfl rfl (fun _ => rfl) (by rw [hpc]; rfl) a
  | check k curr =>
    refine step_same (by rw [hpc]; rfl) ?_ rfl rfl (fun _ => rfl) (by rw [hpc]; rfl) a
    rw [hpc]
    split_ifs
    · rfl
    · exact role_next k
  | alloc k curr => exact step_alloc h he hpc a
  | fallback k curr => exact step_fallback h hpc (hpc ▸ hs) ha
  | install k curr new => exact step_install h hpc ha
  | discard k new => exact step_free (by rw [hpc]; rfl) (Or.inl (by rw [hpc]; rfl)) (role_next k) (by rw [hpc]; rfl) a
  | readPid k ptr => exact step_readPid hpc a
  | sample k ptr pid => exact step_sample hpc a
  | cas k ptr pid idx => exact step_cas h he hpc a
  | close k ptr idx => exact step_close hpc a
  | write k ptr =>
    have hok : exec A e (c.pc t) c.state = .ok (.free k ptr,
        c.state.emit (.written ptr (cstr pibrBufSize (c.state.mem ptr).buf))) := by rw [hpc]; rfl
    exact step_same hok (by rw [hpc]; rfl) rfl rfl (fun _ => rfl) (by rw [hpc]; rfl) a
  | free k ptr => exact step_free (by rw [hpc]; rfl) (Or.inr (by rw [hpc]; rfl)) (role_next k) (by rw [hpc]; rfl) a

end Step

end Cosmost.Bblog
