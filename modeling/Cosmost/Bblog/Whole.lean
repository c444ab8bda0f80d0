import Cosmost.Bblog.Invariant
import Cosmost.Lib.Pieces

/-!
# Is a text in the log whole?

The records taken for a buffer lie one behind the other from the prefix on, each in the buffer or still being copied
(`Conf.Laid`), as long as no reservation takes the `memcpy` branch while a doomed reservation is outstanding on the
buffer. Then a text that goes to the log is the prefix and the records taken, its last comma replaced (`texts_whole`).
A record taken behind a doomed reservation leaves a gap when that is rolled back (`doomed_gap`).
-/

namespace Cosmost.Bblog

open Cosmost.Lib

/-- The texts of some records. -/
abbrev texts (ms : List Record) : List (List Char) := ms.map Record.text

/-- **A text is whole**: the prefix, the records taken in some order, and the last comma replaced. -/
def Write.Whole (e : Process) (w : Write) : Prop :=
  ∃ ms, ms ≠ [] ∧ ms.Perm w.taken ∧
    w.text = (prefixText e ++ (texts ms).flatten).dropLast ++ "\x7d\x7d".toList

theorem texts_nulFree (ms : List Record) : NulFree (texts ms).flatten := by
  refine nulFree_flatten fun l hl => ?_
  obtain ⟨m, -, rfl⟩ := List.mem_map.mp hl
  exact m.nulFree.append (by unfold NulFree nul; decide)

/-! ## The text of a buffer -/

/-- The thread is about to copy a record into the buffer at `a`. -/
def Pc.Copying (a : Nat) (x : Pc) : Prop := ∃ m idx, x = .copy m a idx

/-- What a step between two points does to the text of the buffer at `a` and to its records. -/
inductive Edit (e : Process) (s s' : State) (a : Nat) (ms : List Record) : Pc → Pc → List Record → Prop
  | keep {x q : Pc} : ¬ x.Copying a → ¬ q.Copying a → (a ∈ s'.live → a ∈ s.live) →
      (s'.mem a).buf = (s.mem a).buf → Edit e s s' a ms x q ms
  | take {m : Record} {p idx : Nat} : (s'.mem a).buf = (s.mem a).buf →
      Edit e s s' a ms (.add m p) (.copy m a idx) (ms ++ [m])
  | copy {m : Record} {idx : Nat} : (s'.mem a).buf = blit (s.mem a).buf idx m.text →
      Edit e s s' a ms (.copy m a idx) (.release a) ms
  | fresh {k : Option Record} {curr : Nat} : Fresh e s a s' → Edit e s s' a ms (.alloc k curr) (.install k curr a) []
  | close {k : Option Record} {idx : Nat} : 0 < idx →
      (s'.mem a).buf = strcpy (s.mem a).buf (idx - 1) "\x7d\x7d".toList → Edit e s s' a ms (.close k a idx) (.write k a) ms

theorem setWord_buf (s : State) (p : Nat) (w : BitVec 64) (a : Nat) :
    ((s.setWord p w).mem a).buf = (s.mem a).buf := by
  by_cases h : a = p
  · subst h
    rw [setWord_mem_self]
  · rw [setWord_mem_of_ne _ _ _ h]

theorem exec_edit {A : Allocator} {e : Process} {x q : Pc} {s s' : State} (hg : Globals e s) (he : e.Fits)
    (hok : exec A e x s = .ok (q, s')) (taken : Nat → List Record) (a : Nat) :
    Edit e s s' a (taken a) x q (noteTaken taken x q a) := by
  -- only a `fetch_and_add` leads to a copy
  have hq : (∀ m p, x ≠ .add m p) → ¬ q.Copying a := by
    rintro hx ⟨m, idx, rfl⟩
    obtain ⟨p, rfl, -⟩ := exec_cameFrom hok
    exact hx m p rfl
  cases x with
  | add m p =>
    obtain ⟨rfl, rfl | rfl⟩ := exec_add_ok hok
    · by_cases hptr : a = pibrPtr (s.mem p).pibr
      · subst hptr
        simp only [noteTaken, Function.update_self]
        exact .take (setWord_buf ..)
      · simp only [noteTaken, Function.update_of_ne hptr]
        exact .keep (by rintro ⟨_, _, h⟩; cases h) (by rintro ⟨_, _, h⟩; cases h; exact hptr rfl) id (setWord_buf ..)
    · exact .keep (by rintro ⟨_, _, h⟩; cases h) (by rintro ⟨_, _, h⟩; cases h) id (setWord_buf ..)
  | copy m ptr idx =>
    cases hok
    by_cases hptr : a = ptr
    · subst hptr
      exact .copy (by simp [State.emit])
    · exact .keep (by rintro ⟨_, _, h⟩; cases h; exact hptr rfl) (hq (by simp)) id
        (by simp [State.emit, setBuf_mem_of_ne _ _ _ hptr])
  | alloc k curr =>
    rcases hg.exec_alloc he A k curr with ⟨n, h⟩ | ⟨b, s₁, hf, h⟩
    · cases h.symm.trans hok
      exact .keep (by rintro ⟨_, _, h⟩; cases h) (hq (by simp)) id rfl
    · cases h.symm.trans hok
      by_cases hb : a = b
      · subst hb
        simp only [noteTaken, Function.update_self]
        exact .fresh hf
      · simp only [noteTaken, Function.update_of_ne hb]
        exact .keep (by rintro ⟨_, _, h⟩; cases h) (hq (by simp))
          (fun hmem => List.mem_of_ne_of_mem hb (hf.live ▸ hmem)) (by rw [hf.other a hb])
  | close k ptr idx =>
    simp only [exec] at hok
    split_ifs at hok with hidx
    cases hok
    by_cases hptr : a = ptr
    · subst hptr
      exact .close (by omega) (by rw [setBuf_mem_self])
    · exact .keep (by rintro ⟨_, _, h⟩; cases h) (hq (by simp)) id (by rw [setBuf_mem_of_ne _ _ _ hptr])
  | release ptr =>
    obtain ⟨rfl, -⟩ := exec_release_ok hok
    exact .keep (by rintro ⟨_, _, h⟩; cases h) (hq (by simp)) id (setWord_buf ..)
  | rollback m ptr =>
    obtain ⟨rfl, -⟩ := exec_rollback_ok hok
    exact .keep (by rintro ⟨_, _, h⟩; cases h) (hq (by simp)) id (setWord_buf ..)
  | install k curr new =>
    simp only [exec] at hok
    split_ifs at hok <;> cases hok <;> exact .keep (by rintro ⟨_, _, h⟩; cases h) (hq (by simp)) id rfl
  | readPid k ptr =>
    simp only [exec] at hok
    split_ifs at hok <;> cases hok <;> exact .keep (by rintro ⟨_, _, h⟩; cases h) (hq (by simp)) id rfl
  | cas k ptr pid idx =>
    simp only [exec] at hok
    split_ifs at hok <;> cases hok
    · exact .keep (by rintro ⟨_, _, h⟩; cases h) (hq (by simp)) id (setWord_buf ..)
    · exact .keep (by rintro ⟨_, _, h⟩; cases h) (hq (by simp)) id rfl
  | discard k new =>
    cases hok
    exact .keep (by rintro ⟨_, _, h⟩; cases h) (hq (by simp)) List.mem_of_mem_erase rfl
  | free k ptr =>
    cases hok
    exact .keep (by rintro ⟨_, _, h⟩; cases h) (hq (by simp)) List.mem_of_mem_erase rfl
  | _ =>
    cases hok
    exact .keep (by rintro ⟨_, _, h⟩; cases h) (hq (by simp)) id rfl

/-! ## The layout -/

section Laid

variable {τ : Type*} [Fintype τ] {A : Allocator} {e : Process} {c c' : Conf τ} {t : τ}

/-- The buffer is allocated, and no thread closes it. -/
def Conf.Filling (c : Conf τ) (a : Nat) : Prop := 0 < (c.ledger a).live ∧ (c.ledger a).closers = 0

/-- The records taken lie behind the prefix, in the buffers or on the way there; what is closed and written is whole. -/
structure Conf.Laid (e : Process) (c : Conf τ) : Prop where
  start : ∀ a, a ≠ 0 → c.Filling a → Holds (c.state.mem a).buf 0 (prefixText e)
  pieces : ∀ a, a ≠ 0 → c.Filling a → ∀ o p, PieceAt (prefixText e).length (texts (c.taken a)) o p →
    Holds (c.state.mem a).buf o p ∨ ∃ u m, c.pc u = .copy m a o ∧ p = m.text
  copies : ∀ u m a idx, c.pc u = .copy m a idx →
    a ≠ 0 ∧ PieceAt (prefixText e).length (texts (c.taken a)) idx m.text
  closing : ∀ u k a idx, c.pc u = .close k a idx → a ≠ 0 ∧ c.taken a ≠ [] ∧
    idx = (prefixText e).length + textsLength (c.taken a) ∧
    Holds (c.state.mem a).buf 0 (prefixText e ++ (texts (c.taken a)).flatten)
  writing : ∀ u k a, c.pc u = .write k a →
    a ≠ 0 ∧ Write.Whole e ⟨c.taken a, cstr pibrBufSize (c.state.mem a).buf⟩
  writes : ∀ w ∈ c.writes, w.Whole e

/-- The step at this point takes no record while a doomed reservation is outstanding on the buffer. -/
def Conf.TidyAt (e : Process) (c : Conf τ) : Pc → Prop
  | .add m p => Fitting e m (c.state.mem p).pibr → (c.ledger p).doomed = 0
  | _ => True

instance (c : Conf τ) : ∀ x, Decidable (c.TidyAt e x)
  | .add _ _ => inferInstanceAs (Decidable (_ → _))
  | .idle | .load _ | .copy _ _ _ | .release _ | .rollback _ _ | .loadFlush | .check _ _ | .alloc _ _ | .fallback _ _
  | .install _ _ _ | .discard _ _ | .readPid _ _ | .sample _ _ _ | .cas _ _ _ _ | .close _ _ _ | .write _ _
  | .free _ _ => isTrue trivial

/-- A sound move that leaves no gap. -/
def Conf.Tidy (e : Process) (c : Conf τ) (x : τ × Move) : Prop := c.Sound x ∧ (x.2 = .run → c.TidyAt e (c.pc x.1))

instance (c : Conf τ) (x : τ × Move) : Decidable (c.Tidy e x) := inferInstanceAs (Decidable (_ ∧ _))

/-- Threads that hold a buffer keep it from being closed. -/
theorem Conf.Inv.held_filling (h : c.Inv e) {a : Nat} (ha : a ≠ 0) (hheld : 0 < (c.pc t).role.holders a) :
    c.Filling a := by
  have hle := role_le (Role.holders a) c t
  obtain ⟨hlive, -, hclosers⟩ := (h.ledger a ha).held (Nat.lt_of_lt_of_le hheld hle)
  exact ⟨hlive, hclosers⟩

/-- A record that is taken goes behind the others. -/
theorem Conf.Inv.take_at (h : c.Inv e) {q : Pc} {s : State} (hok : exec A e (c.pc t) c.state = .ok (q, s))
    (hs : c.SoundAt (c.pc t)) (ht : c.TidyAt e (c.pc t)) {m m' : Record} {p a idx : Nat} (hpc : c.pc t = .add m p)
    (hq : q = .copy m' a idx) :
    m' = m ∧ a ≠ 0 ∧ c.Filling a ∧ idx = (prefixText e).length + textsLength (c.taken a) := by
  rw [hpc] at hok hs ht
  subst hq
  rcases h.exec_add (A := A) hs with ⟨x, herr⟩ | ⟨hopen, ⟨hfit, hex⟩ | ⟨-, hex⟩⟩
  · cases herr.symm.trans hok
  · cases hex.symm.trans hok
    have hidx := (h.ledger p hopen.pos).fitting hopen.live hopen.closers hfit.1
    rw [ht hfit, Nat.add_zero] at hidx
    exact ⟨rfl, hopen.pos, ⟨hopen.live, hopen.closers⟩, hidx⟩
  · cases hex.symm.trans hok

/-- The texts written are whole. -/
theorem Conf.Laid.writes_run (hl : c.Laid e) : ∀ w ∈ noteWrites c.taken c.state c.writes (c.pc t), w.Whole e := by
  intro w hw
  cases hpc : c.pc t with
  | write k a =>
    rw [hpc] at hw
    rcases List.mem_append.mp hw with hw | hw
    · exact hl.writes w hw
    · cases List.mem_singleton.mp hw
      exact (hl.writing t k a hpc).2
  | _ =>
    rw [hpc] at hw
    exact hl.writes w hw

section Step

variable {q : Pc} {s : State} (h : c.Inv e) (he : e.Fits) (hok : exec A e (c.pc t) c.state = .ok (q, s))
  (hs : c.SoundAt (c.pc t)) (ht : c.TidyAt e (c.pc t))
include h he hok hs ht

/-- A buffer that a thread closes or writes is left alone by the others. -/
theorem Conf.Inv.closed_alone {u : τ} {a : Nat} (ha : a ≠ 0) (hut : u ≠ t) (hu : (c.pc u).role = .closer a) :
    noteTaken c.taken (c.pc t) q a = c.taken a ∧ (s.mem a).buf = (c.state.mem a).buf := by
  have hone := (h.ledger a ha).one
  have honce := (h.ledger a ha).once
  have hle := role_le (Role.closers a) c u
  rw [hu] at hle
  simp only [Role.closers, ↓reduceIte] at hle
  have hclosers : 1 ≤ (c.ledger a).closers := hle
  have hedit := exec_edit h.globals he hok c.taken a
  generalize noteTaken c.taken (c.pc t) q a = ms at hedit ⊢
  generalize hx : c.pc t = x at hedit
  cases hedit with
  | keep _ _ _ hbuf => exact ⟨rfl, hbuf⟩
  | take =>
    obtain ⟨-, -, hfill, -⟩ := h.take_at hok hs ht hx rfl
    have := hfill.2
    omega
  | copy =>
    have hfill : c.Filling a := h.held_filling (t := t) ha (by rw [hx]; simp [Pc.role])
    have := hfill.2
    omega
  | fresh hfresh =>
    have hlive : 0 < c.state.live.count a := show 0 < (c.ledger a).live by omega
    exact absurd (List.count_pos_iff.mp hlive) hfresh.fresh
  | close =>
    -- one thread closes a buffer
    have htwo := add_le_total (Role.closers a) c.roles hut
    rw [show c.roles u = .closer a from hu, Conf.roles, hx] at htwo
    simp only [Pc.role, Role.closers, ↓reduceIte] at htwo
    have hclosers' : 2 ≤ (c.ledger a).closers := htwo
    omega

variable [DecidableEq τ] (hl : c.Laid e)
include hl

/-- A step keeps the layout of the buffers that are not being closed. -/
theorem Conf.Laid.fill {a : Nat} (ha : a ≠ 0) (hf : (c.run A e t).Filling a) :
    Holds (s.mem a).buf 0 (prefixText e) ∧
    ∀ o p, PieceAt (prefixText e).length (texts (noteTaken c.taken (c.pc t) q a)) o p →
      Holds (s.mem a).buf o p ∨ ∃ u m, Function.update c.pc t q u = .copy m a o ∧ p = m.text := by
  have hbefore := (h.ledger a ha).filling_before (h.ledger_step (A := A) he hs ha) hf.1 hf.2
  have hledger := ledger_run hok a
  have hedit := exec_edit h.globals he hok c.taken a
  generalize noteTaken c.taken (c.pc t) q a = ms at hedit ⊢
  generalize hx : c.pc t = x at hedit
  cases hedit with
  | keep hxa hqa hlive hbuf =>
    have hfill : c.Filling a := by
      refine hbefore.resolve_left fun hfree => ?_
      have hmem : 0 < s.live.count a := by
        have := hf.1
        rwa [hledger] at this
      exact absurd (hlive (List.count_pos_iff.mp hmem)) (List.count_eq_zero.mp hfree)
    rw [hbuf]
    refine ⟨hl.start a ha hfill, fun o p hp => ?_⟩
    rcases hl.pieces a ha hfill o p hp with hb | ⟨u, m, hu, rfl⟩
    · exact Or.inl hb
    · have hut : u ≠ t := by
        rintro rfl
        exact hxa ⟨m, o, hx ▸ hu⟩
      exact Or.inr ⟨u, m, by rw [Function.update_of_ne hut, hu], rfl⟩
  | @take m p' idx hbuf =>
    obtain ⟨-, -, hfill, hidx⟩ := h.take_at hok hs ht hx rfl
    rw [hbuf]
    refine ⟨hl.start a ha hfill, fun o p hp => ?_⟩
    rw [texts, List.map_append, List.map_singleton, pieceAt_concat] at hp
    rcases hp with hp | ⟨rfl, rfl⟩
    · rcases hl.pieces a ha hfill o p hp with hb | ⟨u, m', hu, rfl⟩
      · exact Or.inl hb
      · have hut : u ≠ t := by
          rintro rfl
          cases hx.symm.trans hu
        exact Or.inr ⟨u, m', by rw [Function.update_of_ne hut, hu], rfl⟩
    · -- the new record is still to be copied
      exact Or.inr ⟨t, m, by rw [Function.update_self, hidx, textsLength], rfl⟩
  | @copy m idx hbuf =>
    have hfill : c.Filling a := h.held_filling (t := t) ha (by rw [hx]; simp [Pc.role])
    have hat := (hl.copies t m a idx hx).2
    rw [hbuf]
    refine ⟨(hl.start a ha hfill).blit_of_le _ (by have := hat.bounds.1; omega), fun o p hp => ?_⟩
    rcases hl.pieces a ha hfill o p hp with hb | ⟨u, m', hu, rfl⟩
    · exact Or.inl (hat.holds_blit hp hb)
    · by_cases hut : u = t
      · subst hut
        cases hx.symm.trans hu
        exact Or.inl (holds_blit _ _ _)
      · exact Or.inr ⟨u, m', by rw [Function.update_of_ne hut, hu], rfl⟩
  | fresh hfresh =>
    refine ⟨?_, fun o p hp => hp.elim⟩
    have hholds := hfresh.holds
    rwa [hfresh.prefixBuf, h.globals.freshPrefix_eq] at hholds
  | @close k idx =>
    -- the thread itself is closing the buffer
    have hle := role_le (Role.closers a) c t
    rw [hx] at hle
    simp only [Pc.role, Role.closers, ↓reduceIte] at hle
    have hclosers : 1 ≤ (c.ledger a).closers := hle
    have hone := (h.ledger a ha).one
    omega

/-- A thread that is to copy a record copies it to its place. -/
theorem Conf.Laid.copies_run {u : τ} {m : Record} {a idx : Nat} (hu : Function.update c.pc t q u = .copy m a idx) :
    a ≠ 0 ∧ PieceAt (prefixText e).length (texts (noteTaken c.taken (c.pc t) q a)) idx m.text := by
  have hedit := exec_edit h.globals he hok c.taken a
  generalize noteTaken c.taken (c.pc t) q a = ms at hedit ⊢
  generalize hx : c.pc t = x at hedit
  by_cases hut : u = t
  · subst hut
    rw [Function.update_self] at hu
    subst hu
    cases hedit with
    | keep _ hqa => exact absurd ⟨m, idx, rfl⟩ hqa
    | take =>
      obtain ⟨-, ha, -, hidx⟩ := h.take_at hok hs ht hx rfl
      rw [texts, List.map_append, List.map_singleton, pieceAt_concat]
      exact ⟨ha, Or.inr ⟨hidx, rfl⟩⟩
  · rw [Function.update_of_ne hut] at hu
    obtain ⟨ha, hat⟩ := hl.copies u m a idx hu
    refine ⟨ha, ?_⟩
    cases hedit with
    | take =>
      rw [texts, List.map_append, List.map_singleton, pieceAt_concat]
      exact Or.inl hat
    | fresh hfresh =>
      -- the buffer is held, so it is not new
      have hfill : c.Filling a := h.held_filling (t := u) ha (by rw [hu]; simp [Pc.role])
      exact absurd (List.count_pos_iff.mp hfill.1) hfresh.fresh
    | _ => exact hat

/-- **A flusher that leaves its loop has the whole text before it.** -/
theorem Conf.Laid.closing_run {u : τ} {k : Option Record} {a idx : Nat}
    (hu : Function.update c.pc t q u = .close k a idx) :
    a ≠ 0 ∧ noteTaken c.taken (c.pc t) q a ≠ [] ∧
    idx = (prefixText e).length + textsLength (noteTaken c.taken (c.pc t) q a) ∧
    Holds (s.mem a).buf 0 (prefixText e ++ (texts (noteTaken c.taken (c.pc t) q a)).flatten) := by
  by_cases hut : u = t
  · subst hut
    rw [Function.update_self] at hu
    subst hu
    obtain ⟨pid, hpc, hw⟩ := exec_cameFrom hok
    have hread := h.read u
    rw [hpc] at hread
    obtain ⟨ha, -, -, hidx⟩ := hread
    obtain ⟨hheld, hend⟩ := h.cas_eq he hpc hw
    obtain ⟨-, hlive, -, hclosers, -⟩ := h.flushed_live ha (t := u) (by rw [hpc]; rfl)
    have hpieces : ∀ o p, PieceAt (prefixText e).length (texts (c.taken a)) o p →
        Holds (c.state.mem a).buf o p := by
      intro o p hp
      rcases hl.pieces a ha ⟨hlive, hclosers⟩ o p hp with hb | ⟨v, m, hv, -⟩
      · exact hb
      · have hle := role_le (Role.holders a) c v
        rw [hv] at hle
        simp only [Pc.role, Role.holders, ↓reduceIte] at hle
        have hholders : 1 ≤ (c.ledger a).holders := hle
        omega
    have hedit := exec_edit h.globals he hok c.taken a
    have htaken : noteTaken c.taken (c.pc u) (.close k a idx) a = c.taken a := by rw [hpc]; rfl
    rw [htaken] at hedit ⊢
    refine ⟨ha, fun hnil => hidx ?_, hend, ?_⟩
    · rw [hend, Conf.ledger, hnil, textsLength_nil, Nat.add_zero]
    · have hbuf : (s.mem a).buf = (c.state.mem a).buf := by
        rw [hpc] at hedit
        cases hedit
        assumption
      rw [hbuf]
      refine (hl.start a ha ⟨hlive, hclosers⟩).append ?_
      rw [Nat.zero_add]
      exact holds_flatten hpieces
  · rw [Function.update_of_ne hut] at hu
    obtain ⟨ha, hne, hidx, hholds⟩ := hl.closing u k a idx hu
    obtain ⟨htaken, hbuf⟩ := h.closed_alone he hok hs ht ha hut (by rw [hu]; rfl)
    rw [htaken, hbuf]
    exact ⟨ha, hne, hidx, hholds⟩

/-- **What a closing thread leaves is the whole text.** -/
theorem Conf.Laid.writing_run {u : τ} {k : Option Record} {a : Nat} (hu : Function.update c.pc t q u = .write k a) :
    a ≠ 0 ∧ Write.Whole e ⟨noteTaken c.taken (c.pc t) q a, cstr pibrBufSize (s.mem a).buf⟩ := by
  by_cases hut : u = t
  · subst hut
    rw [Function.update_self] at hu
    subst hu
    obtain ⟨idx, hpc, hpos⟩ := exec_cameFrom hok
    obtain ⟨ha, hne, hidx, hholds⟩ := hl.closing u k a idx hpc
    have htaken : noteTaken c.taken (c.pc u) (.write k a) a = c.taken a := by rw [hpc]; rfl
    have hbuf : (s.mem a).buf = strcpy (c.state.mem a).buf (idx - 1) "\x7d\x7d".toList := by
      rw [hpc] at hok
      simp only [exec] at hok
      split_ifs at hok
      cases hok
      rw [setBuf_mem_self]
    have hlen : idx = (prefixText e ++ (texts (c.taken a)).flatten).length := by
      rw [List.length_append, hidx, textsLength]
    have hroom : idx + 1 < pibrBufSize := by
      have hle := role_le (Role.closers a) c u
      rw [hpc] at hle
      simp only [Pc.role, Role.closers, ↓reduceIte] at hle
      have hclosers : 1 ≤ (c.ledger a).closers := hle
      have hone := (h.ledger a ha).one
      have hroom := (h.ledger a ha).room (by omega)
      rw [loggerEntryMaxPayload_eq, show (c.ledger a).stored = textsLength (c.taken a) from rfl] at hroom
      rw [pibrBufSize_eq]
      omega
    have htext := closedText_eq ((prefixText_nulFree e).append (texts_nulFree (c.taken a))) hholds (by omega)
      (by omega)
    rw [← hlen, closedText, ← hbuf] at htext
    rw [htaken]
    refine ⟨ha, c.taken a, hne, List.Perm.refl _, ?_⟩
    simp only
    exact htext
  · rw [Function.update_of_ne hut] at hu
    obtain ⟨ha, hwhole⟩ := hl.writing u k a hu
    obtain ⟨htaken, hbuf⟩ := h.closed_alone he hok hs ht ha hut (by rw [hu]; rfl)
    rw [htaken, hbuf]
    exact ⟨ha, hwhole⟩

/-- **A tidy step keeps the layout.** -/
theorem Conf.Laid.run : (c.run A e t).Laid e := by
  have hfill : ∀ a, a ≠ 0 → (c.run A e t).Filling a → _ := fun a ha hf => hl.fill h he hok hs ht ha hf
  have hcopies : ∀ u m a idx, Function.update c.pc t q u = .copy m a idx → _ :=
    fun u m a idx hu => hl.copies_run h he hok hs ht hu
  have hclosing : ∀ u k a idx, Function.update c.pc t q u = .close k a idx → _ :=
    fun u k a idx hu => hl.closing_run h he hok hs ht hu
  have hwriting : ∀ u k a, Function.update c.pc t q u = .write k a → _ :=
    fun u k a hu => hl.writing_run h he hok hs ht hu
  rw [run_ok hok] at hfill ⊢
  exact ⟨fun a ha hf => (hfill a ha hf).1, fun a ha hf => (hfill a ha hf).2, hcopies, hclosing, hwriting, hl.writes_run⟩

end Step

/-- After `bblog_init` the buffer, if there is one, holds the prefix. -/
theorem Conf.Started.laid (he : e.Fits) (h : c.Started A e) : c.Laid e := by
  obtain ⟨cntr, mem, rfl⟩ := h
  refine ⟨fun a ha hf => ?_, fun a ha hf o p hp => hp.elim, fun u m a idx hu => ?_, fun u k a idx hu => ?_,
    fun u k a hu => ?_, fun w hw => absurd hw List.not_mem_nil⟩
  · have hlive := List.count_pos_iff.mp hf.1
    cases hA : A.memalign 0 [] with
    | none =>
      simp [bblogInit, swapBuffers, allocBuffer, State.init, hA] at hlive
    | some x =>
      have hserved : (A.memalign (State.init cntr mem).allocs (State.init cntr mem).live).isSome := by
        rw [State.init, hA]
        rfl
      obtain ⟨b, s, heq, hf⟩ := bblogInit_fresh he (prefixOk_init cntr mem) rfl hserved
      simp only [heq] at hlive ⊢
      have hb : a = b := by
        rw [hf.live] at hlive
        simpa [State.init] using hlive
      have hholds := hf.holds
      rwa [hf.prefixBuf, freshPrefix_init, ← hb] at hholds
  all_goals cases hu

variable [DecidableEq τ]

theorem Conf.Laid.step {x : τ × Move} (hl : c.Laid e) (h : c.Inv e) (he : e.Fits) (ht : c.Tidy e x)
    (hstep : c.step A e x = some c') : c'.Laid e := by
  obtain ⟨t, mv⟩ := x
  rcases step_cases hstep with ⟨q, hcall, hidle, rfl⟩ | ⟨rfl, rfl⟩
  · have hrole : q.role = (c.pc t).role := by
      rcases hcall with rfl | ⟨m, rfl⟩ <;> rw [hidle] <;> rfl
    have hledger : ∀ a, (c.goto t q).ledger a = c.ledger a := ledger_same _ _ hrole rfl rfl fun _ => rfl
    have hfilling : ∀ a, (c.goto t q).Filling a → c.Filling a := by
      intro a hf
      rwa [Conf.Filling, hledger] at hf
    refine ⟨fun a ha hf => hl.start a ha (hfilling a hf), fun a ha hf o p hp => ?_,
      fun u m a idx hu => hl.copies u m a idx (goto_pc ?_ hu), fun u k a idx hu => hl.closing u k a idx (goto_pc ?_ hu),
      fun u k a hu => hl.writing u k a (goto_pc ?_ hu), hl.writes⟩
    · rcases hl.pieces a ha (hfilling a hf) o p hp with hb | ⟨u, m, hu, rfl⟩
      · exact Or.inl hb
      · have hut : u ≠ t := by
          rintro rfl
          cases hidle.symm.trans hu
        exact Or.inr ⟨u, m, (Function.update_of_ne hut ..).trans hu, rfl⟩
    all_goals rcases hcall with rfl | ⟨m', rfl⟩ <;> simp
  · cases hok : exec A e (c.pc t) c.state with
    | error x =>
      rw [run_error hok]
      exact ⟨hl.start, hl.pieces, hl.copies, hl.closing, hl.writing, hl.writes⟩
    | ok x => exact hl.run h he hok (ht.1 rfl) (ht.2 rfl)

/-- **Every text in the log is whole.** In every run of any number of threads whose moves are tidy, each text that
`flush_buffer` wrote is the prefix followed by the records whose reservation on that buffer took the `memcpy` branch, with the
last comma replaced. -/
theorem texts_whole {τ : Type*} [Fintype τ] [DecidableEq τ] (A : Allocator) (e : Process) (he : e.Fits) (c : Conf τ)
    (hc : Reach (Conf.step A e) (Conf.Tidy e) (Conf.Started A e) c) : ∀ w ∈ c.writes, w.Whole e := by
  have hinv : c.Inv e ∧ c.Laid e := by
    refine Reach.inv (I := fun c => c.Inv e ∧ c.Laid e) (fun c hc => ⟨hc.inv he, hc.laid he⟩) ?_ hc
    rintro c x c' ⟨h, hl⟩ hx hstep
    exact ⟨h.step he hx.1 hstep, hl.step h he hx hstep⟩
  exact hinv.2.writes

end Laid

/-! ## A text that is whole, and one with a gap -/

/-- Two threads reserve and copy in turn; then one of them flushes. -/
def twoRecords (t u : Fin 2) : List (Fin 2 × Move) :=
  (t, .blog filler9) :: steps t 2 ++ (u, .blog filler4) :: steps u 3 ++ steps t 2 ++
    steps u 1 ++ (u, .flush) :: steps u 9

/-- Their text is whole. -/
theorem two_records_whole : ∃ c : Conf (Fin 2),
    Reach (Conf.step twoPages app) (Conf.Tidy app) (Conf.Started twoPages app) c ∧
    c.writes.length = 1 ∧ ∀ w ∈ c.writes, w.Whole app := by
  have hrun : (runAll (Conf.step twoPages app) (Conf.Tidy app) (appThreads 2) (twoRecords 0 1)).any
      (fun c => c.writes.length = 1) = true := by decide +kernel
  obtain ⟨c, hc, hp⟩ := Reach.of_runAll (appThreads_started 2) _ _ hrun
  exact ⟨c, hc, of_decide_eq_true hp, texts_whole twoPages app app_fits c hc⟩

/-- A whole text is one longer than the prefix and the records. -/
theorem Write.Whole.length {e : Process} {w : Write} (h : w.Whole e) :
    w.text.length = (prefixText e).length + textsLength w.taken + 1 := by
  obtain ⟨ms, -, hperm, htext⟩ := h
  have hlen : (texts ms).flatten.length = textsLength w.taken := (hperm.map Record.text).flatten.length_eq
  have hpos := length_prefixText_pos e
  have hends : "\x7d\x7d".toList.length = 2 := rfl
  rw [htext, List.length_append, List.length_dropLast, List.length_append, hlen, hends]
  omega

/-- A record of 10 bytes is stored. One of 4010 bytes and another of 10 do not fit behind it, and when the first of them is
rolled back, one of 5 bytes fits, behind what the other still reserves. Then that is rolled back, and the buffer is
flushed. -/
def doomedGap (t u v : Fin 3) : List (Fin 3 × Move) :=
  (v, .blog filler9) :: steps v 4 ++ (t, .blog filler4009) :: steps t 2 ++
    (u, .blog filler9) :: steps u 2 ++ steps t 1 ++ (v, .blog filler4) :: steps v 4 ++
    steps u 1 ++ steps t 8

/-- **A text with a gap**: the record of 5 bytes is not in it. The moves are sound. -/
theorem doomed_gap : ∃ c : Conf (Fin 3),
    Reach (Conf.step twoPages app) Conf.Sound (Conf.Started twoPages app) c ∧ ∃ w ∈ c.writes, ¬ w.Whole app := by
  have hrun : (runAll (Conf.step twoPages app) Conf.Sound (appThreads 3) (doomedGap 0 1 2)).any
      (fun c => ∃ w ∈ c.writes, w.text.length ≠ (prefixText app).length + textsLength w.taken + 1) = true := by
    decide +kernel
  obtain ⟨c, hc, hp⟩ := Reach.of_runAll (appThreads_started 3) _ _ hrun
  obtain ⟨w, hw, hne⟩ := of_decide_eq_true hp
  exact ⟨c, hc, w, hw, fun h => hne h.length⟩

end Cosmost.Bblog
