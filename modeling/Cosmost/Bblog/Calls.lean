import Cosmost.Bblog.Loop

/-!
# Calls of the logger in any state

A process calls the logger in a state that its own calls left, or those of the processes that it was forked from, with
whatever answers of `memalign`. `Sane s`: there is no current buffer, or its word was cleared by `bblog_exit(1)`, or it is
`Ready`.

- `swapAndFlush_swept`: what `swap_and_flush_buffer` does to such a state (`Swept`);
- `blogLoop_rule`: what every swap keeps and every record stored, a call of `_blog` that returns keeps.
-/

namespace Cosmost.Bblog

open Cosmost.Lib

/-! ## States -/

/-- The word of the current buffer is `0`. -/
structure Cleared (s : State) : Prop where
  page : Page s.procPibr
  live : s.procPibr ∈ s.live
  word : (s.mem s.procPibr).pibr = 0

/-- What calls leave. -/
structure Sane (s : State) : Prop extends PrefixOk s where
  pos : 0 < s.procid → 0 < s.prefixLen
  used : s.procPibr ≠ 0 → 0 < s.procid
  current : s.procPibr = 0 ∨ Cleared s ∨ ∃ msgs, Ready s msgs

theorem sane_init (c : Nat) (mem : Nat → Pibr) : Sane (.init c mem) :=
  ⟨prefixOk_init c mem, fun h => absurd h (Nat.lt_irrefl 0), fun h => absurd rfl h, Or.inl rfl⟩

theorem Ready.sane {s : State} {msgs : List (List Char)} (h : Ready s msgs) (hpid : 0 < s.procid) : Sane s :=
  ⟨h.toPrefixOk, fun _ => h.pos, fun _ => hpid, Or.inr (Or.inr ⟨msgs, h⟩)⟩

/-- A state without a current buffer. -/
theorem Sane.null {s s' : State} (h : Sane s) (hp : s'.procPibr = 0) (hpid : s'.procid = s.procid)
    (hbuf : s'.prefixBuf = s.prefixBuf) (hlen : s'.prefixLen = s.prefixLen) : Sane s' :=
  ⟨⟨by rw [hbuf, hlen]; exact h.len, by rw [hlen]; exact h.short⟩, by rw [hpid, hlen]; exact h.pos,
    fun hne => absurd hp hne, Or.inl hp⟩

theorem Sane.freshPrefix_pos {s : State} (h : Sane s) (e : Process) : 0 < (freshPrefix e s).length :=
  Bblog.freshPrefix_pos fun hpid => by rw [h.len]; exact h.pos (hpid ▸ e.pos)

/-- A new buffer is current after `swap_buffers`. -/
theorem Fresh.sane {e : Process} {s s' : State} {a : Nat} (hf : Fresh e s a s') (he : e.Fits) (h : Sane s) :
    Ready { s' with procPibr := a } [] ∧ Sane { s' with procPibr := a } := by
  have hready := hf.ready he h.toPrefixOk (h.freshPrefix_pos e)
  exact ⟨hready, hready.sane (by rw [hf.procid]; exact e.pos)⟩

/-- A buffer without a word belongs to no process. -/
theorem flushBuffer_cleared {s : State} {p : Nat} (hpid : 0 < s.procid) (hw : (s.mem p).pibr = 0) :
    flushBuffer p s = .ok s := by
  have hzero : pibrPid 0 = 0 := by decide
  unfold flushBuffer
  split_ifs with hp
  · rfl
  · rw [hw, hzero, if_pos (by omega)]

/-! ## Swapping -/

/-- What `swap_and_flush_buffer` does: a new buffer is current, or none if `memalign` fails; the records of the old buffer
went to the log if `procid` was its pid after that. -/
structure Swept (A : Allocator) (e : Process) (s s' : State) : Prop where
  sane : Sane s'
  served : (A.memalign s.allocs s.live).isSome →
    Ready s' [] ∧ s'.procPibr ∉ s.live ∧ s'.procid = e.pid ∧ s'.prefixBuf = freshPrefix e s
  unserved : A.memalign s.allocs s.live = none →
    s'.procPibr = 0 ∧ s'.procid = s.procid ∧ s'.prefixBuf = s.prefixBuf
  trace : (s'.trace = s.trace ∧ ∀ a ∈ s.live, a ∈ s'.live) ∨
    ∃ msgs, Ready s msgs ∧ msgs.flatten ≠ [] ∧ (s.procid = e.pid ∨ A.memalign s.allocs s.live = none) ∧
      s'.trace = s.trace ++
        [.written s.procPibr (closedText (s.mem s.procPibr).buf (s.prefixLen + msgs.flatten.length))] ∧
      ∀ a ∈ s.live, a ≠ s.procPibr → a ∈ s'.live

section Swap

variable {A : Allocator} {e : Process} {s : State}

/-- `swap_buffers` without an answer of `memalign`. -/
theorem swapBuffers_unserved (hA : A.memalign s.allocs s.live = none) :
    swapBuffers A e s.procPibr s = (true, { s with allocs := s.allocs + 1, procPibr := 0 }) := by
  simp [swapBuffers, allocBuffer, hA]

/-- `swap_buffers` with one. -/
theorem swapBuffers_served (he : e.Fits) (hs : PrefixOk s) (hA : (A.memalign s.allocs s.live).isSome) :
    ∃ a s', swapBuffers A e s.procPibr s = (true, { s' with procPibr := a }) ∧ Fresh e s a s' := by
  obtain ⟨a, s', heq, hf⟩ := allocBuffer_fresh he hs hA
  have ha : a ≠ 0 := by have := hf.page.1; omega
  exact ⟨a, s', by simp [swapBuffers, heq, ha, hf.procPibr], hf⟩

/-- **`swap_and_flush_buffer` on the current buffer, or on none.** -/
theorem swapAndFlush_swept (h : Sane s) (he : e.Fits) :
    ∃ s', swapAndFlushBuffer A e s.procPibr s = .ok s' ∧ Swept A e s s' := by
  have hflat : s.procPibr ≠ 0 → ∀ s₁ : State, swapBuffers A e s.procPibr s = (true, s₁) →
      Page s.procPibr → swapAndFlushBuffer A e s.procPibr s = flushBuffer s.procPibr s₁ := by
    intro hp s₁ hswap hpage
    simp [swapAndFlushBuffer, hswap, hp, pibrPtr_page hpage]
  cases hA : A.memalign s.allocs s.live with
  | none =>
    have hswap := swapBuffers_unserved (e := e) hA
    -- no text goes out of a buffer that is not there or has no word
    have hkept : Swept A e s { s with allocs := s.allocs + 1, procPibr := 0 } :=
      ⟨h.null rfl rfl rfl rfl, fun hs => absurd hs (by simp [hA]), fun _ => ⟨rfl, rfl, rfl⟩,
        Or.inl ⟨rfl, fun _ ha => ha⟩⟩
    rcases h.current with hp | hc | ⟨msgs, hr⟩
    · rw [hp] at hswap ⊢
      exact ⟨_, by simp [swapAndFlushBuffer, hswap], hkept⟩
    · have hp0 : s.procPibr ≠ 0 := by have := hc.page.1; omega
      exact ⟨_, (hflat hp0 _ hswap hc.page).trans (flushBuffer_cleared (h.used hp0) hc.word), hkept⟩
    · have hp0 : s.procPibr ≠ 0 := by have := hr.page.1; omega
      have hroom := hr.room
      rw [loggerEntryMaxPayload_eq] at hroom
      have hflush := flushBuffer_eq (s := { s with allocs := s.allocs + 1, procPibr := 0 }) hr.page hr.pid
        (by omega) (by have := hr.pos; omega) hr.word
      refine ⟨_, (hflat hp0 _ hswap hr.page).trans hflush, ?_⟩
      by_cases hmsgs : msgs.flatten = []
      · rw [if_neg (by simp [hmsgs])]
        exact hkept
      · have hlen : 0 < msgs.flatten.length := List.length_pos_of_ne_nil hmsgs
        rw [if_pos ⟨rfl, by simp only; omega⟩]
        exact ⟨h.null rfl rfl rfl rfl, fun hs => absurd hs (by simp [hA]), fun _ => ⟨rfl, rfl, rfl⟩,
          Or.inr ⟨msgs, hr, hmsgs, Or.inr hA, rfl, fun a ha hne => (List.mem_erase_of_ne hne).mpr ha⟩⟩
  | some x =>
    have hsome : (A.memalign s.allocs s.live).isSome := by rw [hA]; rfl
    obtain ⟨a, s₁, hswap, hf⟩ := swapBuffers_served he h.toPrefixOk hsome
    obtain ⟨hready, hsane⟩ := hf.sane he h
    have hkept : Swept A e s { s₁ with procPibr := a } :=
      ⟨hsane, fun _ => ⟨hready, hf.fresh, hf.procid, hf.prefixBuf⟩, fun hn => absurd hn (by simp [hA]),
        Or.inl ⟨hf.trace, fun b hb => by rw [hf.live]; exact List.mem_cons_of_mem _ hb⟩⟩
    rcases h.current with hp | hc | ⟨msgs, hr⟩
    · rw [hp] at hswap ⊢
      exact ⟨_, by simp [swapAndFlushBuffer, hswap], hkept⟩
    · have hp0 : s.procPibr ≠ 0 := by have := hc.page.1; omega
      have hne : s.procPibr ≠ a := fun heq => hf.fresh (heq ▸ hc.live)
      have hw : (s₁.mem s.procPibr).pibr = 0 := by rw [hf.other _ hne]; exact hc.word
      have hpid : 0 < s₁.procid := by rw [hf.procid]; exact e.pos
      exact ⟨_, (hflat hp0 _ hswap hc.page).trans (flushBuffer_cleared (s := { s₁ with procPibr := a }) hpid hw), hkept⟩
    · obtain ⟨s', hs', hsw⟩ := swapAndFlush_swapped he hr hsome
      refine ⟨s', hs', hsw.ready.sane (by rw [hsw.procid]; exact e.pos),
        fun _ => ⟨hsw.ready, hsw.fresh, hsw.procid, hsw.prefixBuf⟩, fun hn => absurd hn (by simp [hA]), ?_⟩
      by_cases hlog : s.procid = e.pid ∧ msgs.flatten ≠ []
      · obtain ⟨hlive, htrace⟩ := hsw.logged hlog.1 hlog.2
        exact Or.inr ⟨msgs, hr, hlog.2, Or.inl hlog.1, htrace, fun b hb hne => by
          rw [hlive]
          exact List.mem_cons_of_mem _ ((List.mem_erase_of_ne hne).mpr hb)⟩
      · obtain ⟨hlive, htrace⟩ := hsw.kept (by rw [not_and_or, not_not] at hlog; exact hlog)
        exact Or.inl ⟨htrace, fun b hb => by rw [hlive]; exact List.mem_cons_of_mem _ hb⟩

end Swap

/-! ## `_blog` -/

section Loop

variable {A : Allocator} {e : Process} {m : List Char} {s : State}

/-- A turn on a word that was cleared goes through a null pointer. -/
theorem blogTurn_cleared (h : Cleared s) : blogTurn A e m s = .error .fault := by
  have hptr : pibrPtr 0#64 = 0 := by decide
  have hw : (s.mem s.procPibr).pibr = 0#64 := h.word
  simp only [blogTurn, fetchAdd_page h.page, bind, Except.bind, hw, hptr, ↓reduceIte]
  rfl

theorem blogLoop_cleared (h : Cleared s) (n : Nat) (r : Int × State) : blogLoop A e m n s ≠ .ok r := by
  cases n with
  | zero => simp [blogLoop]
  | succ n => simp [blogLoop, blogTurn_cleared h, bind, Except.bind]

/-- A turn with a record that does not fit swaps the buffers. -/
theorem blogTurn_swept (h : Sane s) (he : e.Fits) {msgs : List (List Char)} (hr : Ready s msgs)
    (hfit : ¬(s.procid = e.pid ∧ s.prefixLen + msgs.flatten.length + m.length < loggerEntryMaxPayload - 32)) :
    ∃ s', blogTurn A e m s = .ok (none, s') ∧ Swept A e s s' := by
  obtain ⟨hptr, hpidw, hidx, -⟩ := hr.word_fields
  have hp0 : s.procPibr ≠ 0 := by have := hr.page.1; omega
  obtain ⟨s', hs', hsw⟩ := swapAndFlush_swept (A := A) h he
  refine ⟨s', ?_, hsw⟩
  -- the reservation is taken back
  simp only [blogTurn, fetchAdd_page hr.page, bind, Except.bind, hptr, hp0, ↓reduceIte, hpidw, hidx, hfit,
    fetchSub_page hr.page, setWord_mem_self, setWord_setWord, BitVec.add_sub_cancel, setWord_self, hs']
  rfl

/-- **The rule for `_blog`**: `J` is what every swap keeps and the store of the record, along with what happened. -/
theorem blogLoop_rule {J : State → List Event → Prop} (he : e.Fits)
    (hswap : ∀ {s s' : State} {evs : List Event}, Sane s → J s evs → Swept A e s s' →
      ∃ new, s'.trace = s.trace ++ new ∧ J s' (evs ++ new))
    (hstore : ∀ {s s' : State} {evs : List Event} {msgs : List (List Char)}, Ready s msgs → s.procid = e.pid → J s evs →
      Stored s msgs m s' → J s' (evs ++ [.stored s.procPibr (s.prefixLen + msgs.flatten.length) m]))
    {ret : Int} {s' : State} (n : Nat) : ∀ {s : State} {evs : List Event}, Sane s → J s evs →
      blogLoop A e m n s = .ok (ret, s') → ∃ new, s'.trace = s.trace ++ new ∧ J s' (evs ++ new) ∧ Sane s' := by
  induction n with
  | zero => intro s evs _ _ hr; simp [blogLoop] at hr
  | succ n ih =>
    intro s evs h hJ hok
    rcases h.current with hp | hc | ⟨msgs, hr⟩
    · exact absurd hok (blogLoop_null hp _ _)
    · exact absurd hok (blogLoop_cleared hc _ _)
    · by_cases hfit : s.procid = e.pid ∧ s.prefixLen + msgs.flatten.length + m.length < loggerEntryMaxPayload - 32
      · obtain ⟨s₁, hs₁, hst⟩ := blogTurn_stored (A := A) hr m hfit.1 hfit.2
        rw [blogLoop_done hs₁] at hok
        cases hok
        refine ⟨_, hst.trace, hstore hr hfit.1 hJ hst, hst.ready.sane ?_⟩
        rw [hst.procid, hfit.1]
        exact e.pos
      · obtain ⟨s₁, hs₁, hsw⟩ := blogTurn_swept (A := A) h he hr hfit
        rw [blogLoop_next hs₁] at hok
        obtain ⟨new, htrace, hJ₁⟩ := hswap h hJ hsw
        obtain ⟨new', htrace', hJ', hsane⟩ := ih hsw.sane hJ₁ hok
        exact ⟨new ++ new', by rw [htrace', htrace, List.append_assoc], by rwa [← List.append_assoc], hsane⟩

end Loop

/-! ## Calls -/

/-- A call of the logger: those of `Op`, and `bblog_exit(1)`. -/
inductive Call
  | op (o : Op)
  | exit

/-- The state after a call that returns. -/
def Call.step (A : Allocator) (s : State) : Process × Call → Option State
  | (e, .op o) => Op.step A s (e, o)
  | (e, .exit) => (bblogExit A e 1 s).toOption

section Calls

variable {A : Allocator} {e : Process} {s s' : State}

theorem Sane.withCntr (h : Sane s) (c : Nat) : Sane { s with cntr := c } := by
  refine ⟨⟨h.len, h.short⟩, h.pos, h.used, ?_⟩
  rcases h.current with hp | hc | ⟨msgs, hr⟩
  · exact Or.inl hp
  · exact Or.inr (Or.inl ⟨hc.page, hc.live, hc.word⟩)
  · exact Or.inr (Or.inr ⟨msgs, hr.withCntr c⟩)

/-- `bblog_init` is a swap if there is no current buffer, and nothing if there is one. -/
theorem bblogInit_swept (h : Sane s) (he : e.Fits) :
    bblogInit A e s = s ∨ Swept A e s (bblogInit A e s) := by
  by_cases hp : s.procPibr = 0
  · obtain ⟨s', hs', hsw⟩ := swapAndFlush_swept (A := A) h he
    have hinit : swapAndFlushBuffer A e s.procPibr s = .ok (bblogInit A e s) := by
      rw [hp]
      simp [swapAndFlushBuffer, bblogInit]
    rw [hinit] at hs'
    cases hs'
    exact Or.inr hsw
  · left
    simp [bblogInit, swapBuffers, hp]

/-- **The exit of the process clears the word of the current buffer**, and writes nothing. -/
theorem bblogExit_clears (h : Sane s) (hp : s.procPibr ≠ 0) :
    bblogExit A e 1 s = .ok (s.setWord s.procPibr 0) ∧ Cleared (s.setWord s.procPibr 0) := by
  have hflush : flushBuffer s.procPibr (s.setWord s.procPibr 0) = .ok (s.setWord s.procPibr 0) :=
    flushBuffer_cleared (h.used hp) (by rw [setWord_mem_self])
  have hexit : ∀ w, (s.mem s.procPibr).pibr = w → (pibrPtr w ≠ 0 → pibrPtr w = s.procPibr) →
      bblogExit A e 1 s = .ok (s.setWord s.procPibr 0) := by
    intro w hw hptr
    unfold bblogExit
    simp only [show ¬ (1 : Int) < 0 by decide, show ¬ (1 : Int) = 0 by decide, ↓reduceIte, hp, hw]
    split_ifs with hgo
    · rw [hptr hgo.2]
      exact hflush
    · rfl
  rcases h.current with hp' | hc | ⟨msgs, hr⟩
  · exact absurd hp' hp
  · have hzero : pibrPtr 0 = 0 := by decide
    exact ⟨hexit 0 hc.word fun hne => absurd hzero hne, hc.page, hc.live, by rw [State.setWord]; simp⟩
  · exact ⟨hexit _ rfl fun _ => hr.word_fields.1, hr.page, hr.live, by rw [State.setWord]; simp⟩

/-- **The rule for a call**: `J` is what a swap keeps and the store of a record, counting and the clearing of a word. -/
theorem Call.rule {J : State → List Event → Prop} (he : e.Fits)
    (hcount : ∀ {s : State} {evs : List Event} (c : Nat), J s evs → J { s with cntr := c } evs)
    (hswap : ∀ {s s' : State} {evs : List Event}, Sane s → J s evs → Swept A e s s' →
      ∃ new, s'.trace = s.trace ++ new ∧ J s' (evs ++ new))
    (hstore : ∀ {s s' : State} {evs : List Event} {msgs : List (List Char)} {m : List Char}, Ready s msgs →
      s.procid = e.pid → J s evs → Stored s msgs m s' →
      J s' (evs ++ [.stored s.procPibr (s.prefixLen + msgs.flatten.length) m]))
    (hclear : ∀ {s : State} {evs : List Event}, Sane s → J s evs → J (s.setWord s.procPibr 0) evs)
    {c : Call} (h : Sane s) (hJ : J s []) (hstep : Call.step A s (e, c) = some s') :
    ∃ new, s'.trace = s.trace ++ new ∧ J s' new ∧ Sane s' := by
  cases c with
  | op o =>
    cases o with
    | init =>
      cases hstep
      rcases bblogInit_swept (A := A) h he with heq | hsw
      · rw [heq]
        exact ⟨[], (List.append_nil _).symm, hJ, h⟩
      · obtain ⟨new, htrace, hJ'⟩ := hswap h hJ hsw
        exact ⟨new, htrace, hJ', hsw.sane⟩
    | log n body =>
      have hJc := hcount s.nextCntr hJ
      have hc := h.withCntr s.nextCntr
      simp only [Call.step, Op.step, bblog] at hstep
      split_ifs at hstep with hlong
      · simp only [Except.toOption, Option.map_some, Option.some.injEq] at hstep
        rw [← hstep]
        exact ⟨[], (List.append_nil _).symm, hJc, hc⟩
      · cases hr : blogLoop A e (record (recordKey s.nextCntr) body) n { s with cntr := s.nextCntr } with
        | error err => simp [hr, Except.toOption] at hstep
        | ok r =>
          simp only [hr, Except.toOption, Option.map_some, Option.some.injEq] at hstep
          subst hstep
          obtain ⟨new, htrace, hJ', hsane⟩ := blogLoop_rule he hswap hstore n hc hJc hr
          exact ⟨new, htrace, hJ', hsane⟩
    | signal sig =>
      obtain ⟨s₁, hs₁, hsw⟩ := swapAndFlush_swept (A := A) h he
      have hneg : -((sig : Int) + 1) < 0 := by omega
      simp only [Call.step, Op.step, bblogExit, hneg, ↓reduceIte, hs₁, Except.toOption, Option.some.injEq] at hstep
      subst hstep
      obtain ⟨new, htrace, hJ'⟩ := hswap h hJ hsw
      exact ⟨new, htrace, hJ', hsw.sane⟩
  | exit =>
    by_cases hp : s.procPibr = 0
    · simp [Call.step, bblogExit, hp, Except.toOption] at hstep
    · obtain ⟨heq, hc⟩ := bblogExit_clears (A := A) (e := e) h hp
      simp only [Call.step, heq, Except.toOption, Option.some.injEq] at hstep
      subst hstep
      refine ⟨[], (List.append_nil _).symm, hclear h hJ, ?_⟩
      exact ⟨⟨h.len, h.short⟩, h.pos, h.used, Or.inr (Or.inl hc)⟩

/-- Calls keep a state sane. -/
theorem Sane.step {ev : Process × Call} (h : Sane s) (he : ev.1.Fits) (hstep : Call.step A s ev = some s') : Sane s' := by
  obtain ⟨new, -, -, hs⟩ := Call.rule (J := fun _ _ => True) he (fun _ _ => trivial)
    (fun _ _ hsw => by rcases hsw.trace with ⟨ht, -⟩ | ⟨_, -, -, -, ht, -⟩
                       · exact ⟨[], by rw [ht, List.append_nil], trivial⟩
                       · exact ⟨_, ht, trivial⟩) (fun _ _ _ _ => trivial) (fun _ _ => trivial) h trivial hstep
  exact hs

end Calls

end Cosmost.Bblog
