import Cosmost.Bblog.Exit

/-!
# Who frees a buffer that was swapped out

`flush_buffer` frees a buffer at its end, and has two exits before: for a buffer of another process, and for one without
a record. A buffer that takes one of them was swapped out already, and nobody has a pointer to it any more.

`no_leak`: in a process with one thread, whatever it does, every buffer that was swapped out has been freed once and the
current one is all that is allocated, as long as it logs and gets signals only with a buffer of its own, and signals only
with a record in it; and no longer. `empty_buffer_leaks` is a signal before the first record, `childs_copy_leaks` a record
of a child.
-/

namespace Cosmost.Bblog

open Cosmost.Lib

/-! ## Runs -/

/-- The buffers that `flush_buffer` freed: those that it wrote, just before (`flushBuffer_freed`). -/
def freed (tr : List Event) : List Nat :=
  tr.filterMap fun
    | .written a _ => some a
    | _ => none

/-- A process with one thread between two calls; `out` are the buffers that calls took out of `proc_pibr`. A process is
stuck in a call that does not return. -/
structure Alone where
  process : Process
  state : State
  out : List Nat
  stuck : Bool

/-- What it does. -/
inductive Deed
  /-- It calls `bblog`. -/
  | log (body : Option (List Char))
  /-- The signal `sig + 1` comes, and its handler calls `bblog_exit`. -/
  | signal (sig : Nat)
  /-- It forks, and the run goes on with the child. -/
  | fork (child : Process)

/-- After a call. -/
def Alone.after (c : Alone) : Except Stuck State → Alone
  | .error _ => { c with stuck := true }
  | .ok s => { c with
      state := s, out := c.out ++ if s.procPibr = c.state.procPibr then [] else [c.state.procPibr] }

/-- The next call; the loop of `_blog` has `n + 2` turns. -/
def Alone.step (A : Allocator) (n : Nat) (c : Alone) (d : Deed) : Alone :=
  if c.stuck then c
  else
    match d with
    | .log body => c.after ((bblog A c.process (n + 2) body c.state).map Prod.snd)
    | .signal sig => c.after (bblogExit A c.process (-((sig : Int) + 1)) c.state)
    | .fork child => { c with process := child }

/-- After `bblog_init`. -/
def Alone.Started (A : Allocator) (c : Alone) : Prop :=
  ∃ e cntr mem, e.pid ≤ pidMax ∧ c = ⟨e, bblogInit A e (.init cntr mem), [], false⟩

/-- When no call is in progress, the current buffer is all that is allocated, and each buffer that was swapped out has
been freed once, in turn. -/
def Alone.NoLeak (c : Alone) : Prop :=
  c.stuck = false → c.state.live = [c.state.procPibr] ∧ freed c.state.trace = c.out

instance (c : Alone) : Decidable c.NoLeak := inferInstanceAs (Decidable (_ → _))

/-- A record fits an empty buffer. -/
def Alone.MessageFits (c : Alone) : Deed → Prop
  | .log body => FitsEmpty (freshPrefix c.process c.state).length (record (recordKey c.state.nextCntr) body)
  | .signal _ | .fork _ => True

/-- A process that calls has a valid pid and a name with which the prefix fits. -/
def Alone.CallerFits (c : Alone) : Deed → Prop
  | .log _ | .signal _ => c.process.Fits
  | .fork _ => True

/-- A process that calls has a current buffer of its own, with a record in it if the call is a signal's. -/
def Alone.Owns (c : Alone) : Deed → Prop
  | .log _ => c.state.procid = c.process.pid
  | .signal _ => c.state.procid = c.process.pid ∧
      pibrIdx (c.state.mem c.state.procPibr).pibr ≠ c.state.prefixLen
  | .fork _ => True

instance (c : Alone) : ∀ d, Decidable (c.MessageFits d)
  | .log _ => inferInstanceAs (Decidable (FitsEmpty _ _))
  | .signal _ | .fork _ => isTrue trivial

instance (c : Alone) : ∀ d, Decidable (c.CallerFits d)
  | .log _ | .signal _ => inferInstanceAs (Decidable (Process.Fits _))
  | .fork _ => isTrue trivial

instance (c : Alone) : ∀ d, Decidable (c.Owns d)
  | .log _ => inferInstanceAs (Decidable (_ = _))
  | .signal _ => inferInstanceAs (Decidable (_ ∧ _))
  | .fork _ => isTrue trivial

/-! ## What is freed -/

theorem freed_append (tr tr' : List Event) : freed (tr ++ tr') = freed tr ++ freed tr' := List.filterMap_append

@[simp] theorem freed_stored (a off : Nat) (m : List Char) : freed [.stored a off m] = [] := rfl

@[simp] theorem freed_written (a : Nat) (text : List Char) : freed [.written a text] = [a] := rfl

/-- **`flush_buffer` frees a buffer when it writes it**, and does nothing otherwise. -/
theorem flushBuffer_freed {p : Nat} {s s' : State} (h : flushBuffer p s = .ok s') :
    s' = s ∨ freed s'.trace = freed s.trace ++ [p] ∧ s'.live = s.live.erase p := by
  simp only [flushBuffer] at h
  split_ifs at h
  · exact Or.inl (Except.ok.inj h).symm
  · exact Or.inl (Except.ok.inj h).symm
  · exact Or.inl (Except.ok.inj h).symm
  · obtain rfl := Except.ok.inj h
    right
    simp [freed_append]

/-! ## The name of a process -/

/-- A process of the same pid, without a name. -/
def Process.unnamed (e : Process) : Process := ⟨e.pid, [], e.pos, List.not_mem_nil⟩

theorem Process.unnamed_fits {e : Process} (h : e.pid ≤ pidMax) : e.unnamed.Fits := by
  refine ⟨h, ?_⟩
  have hdigits : (decimal e.pid).length ≤ 10 := length_decimal_le (by omega) (by rw [pidMax_eq] at h; omega)
  rw [length_prefixText, maxPrefixLen_eq]
  show (decimal e.pid).length + 0 + 27 < _
  omega

section Name

variable {A : Allocator} {e : Process} {s : State} (h : s.procid = e.pid)
include h

/-- **A process looks at its name only before it prepares the prefix.** -/
theorem initBuffer_unnamed (ptr : Nat) : initBuffer e.unnamed ptr s = initBuffer e ptr s := by
  simp only [initBuffer, reinitProcid, Process.unnamed, h, ↓reduceIte]

theorem allocBuffer_unnamed : allocBuffer A e.unnamed s = allocBuffer A e s := by
  simp only [allocBuffer]
  cases A.memalign s.allocs s.live with
  | none => rfl
  | some ap =>
    dsimp only
    split_ifs
    · rfl
    · exact congrArg (Prod.mk _) (initBuffer_unnamed (by exact h) _)

theorem swapAndFlush_unnamed (curr : Nat) : swapAndFlushBuffer A e.unnamed curr s = swapAndFlushBuffer A e curr s := by
  simp only [swapAndFlushBuffer, swapBuffers, allocBuffer_unnamed h]

end Name

/-! ## One call -/

/-- Between two calls nothing is leaked. -/
structure Alone.Clean (c : Alone) : Prop where
  returned : c.stuck = false
  only : c.state.live = [c.state.procPibr]
  freed : freed c.state.trace = c.out

/-- And the current buffer is ready. -/
structure Alone.Settled (c : Alone) : Prop extends c.Clean where
  ready : ∃ msgs, Ready c.state msgs

section Step

variable {A : Allocator} {n : Nat} {c : Alone} {msgs : List (List Char)} {s : State}

theorem Alone.Clean.noLeak (h : c.Clean) : c.NoLeak := fun _ => ⟨h.only, h.freed⟩

/-- A call that leaves the current buffer, and writes nothing. -/
theorem Alone.Clean.kept (h : c.Clean) (hready : Ready s msgs) (hp : s.procPibr = c.state.procPibr)
    (hlive : s.live = c.state.live) (htrace : Bblog.freed s.trace = Bblog.freed c.state.trace) :
    (c.after (.ok s)).Settled where
  returned := h.returned
  only := by simp only [Alone.after, hlive, h.only, hp]
  freed := by simp only [Alone.after, htrace, h.freed, hp, ↓reduceIte, List.append_nil]
  ready := ⟨_, hready⟩

/-- A call that swaps the buffers, and writes the old one. -/
theorem Alone.Clean.swapped (h : c.Clean) (hready : Ready s msgs) (hp : s.procPibr ≠ c.state.procPibr)
    (hlive : s.live = [s.procPibr]) (htrace : Bblog.freed s.trace = Bblog.freed c.state.trace ++ [c.state.procPibr]) :
    (c.after (.ok s)).Settled where
  returned := h.returned
  only := hlive
  freed := by simp only [Alone.after, htrace, h.freed, hp, ↓reduceIte]
  ready := ⟨_, hready⟩

/-- A call after which two buffers are allocated. -/
theorem Alone.Clean.leaks (h : c.Clean) (hlive : s.live = s.procPibr :: c.state.live) : ¬ (c.after (.ok s)).NoLeak := by
  intro hleak
  have honly := (hleak h.returned).1
  simp only [Alone.after, hlive, h.only] at honly
  simp at honly

theorem Alone.step_log (h : c.stuck = false) {body : Option (List Char)} {ret : Int}
    (hs : bblog A c.process (n + 2) body c.state = .ok (ret, s)) : c.step A n (.log body) = c.after (.ok s) := by
  simp only [Alone.step, h, Bool.false_eq_true, ↓reduceIte, hs, Except.map]

theorem Alone.step_signal (h : c.stuck = false) {sig : Nat}
    (hs : swapAndFlushBuffer A c.process c.state.procPibr c.state = .ok s) :
    c.step A n (.signal sig) = c.after (.ok s) := by
  have hneg : -((sig : Int) + 1) < 0 := by omega
  simp only [Alone.step, h, Bool.false_eq_true, ↓reduceIte, bblogExit, hneg, hs]

theorem freshPrefix_own {e : Process} (h : s.procid = e.pid) : freshPrefix e s = s.prefixBuf := if_pos h

/-- `_blog` of a process that owns the current buffer does not look at the name. -/
theorem blogLoop_own {e : Process} {m : List Char} (h : Ready s msgs) (hpid : s.procid = e.pid)
    (hA : (A.memalign s.allocs s.live).isSome) (hm : FitsEmpty s.prefixLen m) :
    ∃ s', blogLoop A e m (n + 2) s = .ok (m.length, s') ∧ Logged e.unnamed m s msgs s' := by
  by_cases hfit : s.procid = e.pid ∧ s.prefixLen + msgs.flatten.length + m.length < loggerEntryMaxPayload - 32
  · obtain ⟨s', hs', hst⟩ := blogTurn_stored h m hpid hfit.2
    exact ⟨s', blogLoop_done hs' _, .stored hpid hst⟩
  · obtain ⟨s₁, hs₁, hsw⟩ := swapAndFlush_swapped (Process.unnamed_fits (hpid ▸ h.pid)) h hA
    rw [swapAndFlush_unnamed hpid] at hs₁
    have hroom : s₁.prefixLen + ([] : List (List Char)).flatten.length + m.length < loggerEntryMaxPayload - 32 := by
      rw [← hsw.ready.len, hsw.prefixBuf, freshPrefix_own (e := e.unnamed) hpid, h.len]
      exact hm
    have hpid₁ : s₁.procid = e.pid := hsw.procid
    obtain ⟨s', hs', hst⟩ := blogTurn_stored hsw.ready m hpid₁ hroom
    exact ⟨s', by rw [blogLoop_next (blogTurn_of_swap h m hs₁ hfit), blogLoop_done hs'], .swapped hfit hsw hst⟩

/-! ## One step -/

/-- **A record of the process that owns the buffer** is stored in it, or in a new one after the old one was written. -/
theorem Alone.Settled.log (h : c.Settled) (hA : Serves A) {body : Option (List Char)} (hfit : c.MessageFits (.log body))
    (hown : c.Owns (.log body)) : (c.step A n (.log body)).Settled := by
  have hpid : c.state.procid = c.process.pid := hown
  obtain ⟨msgs, hr⟩ := h.ready
  have hm : FitsEmpty c.state.prefixLen (record (recordKey c.state.nextCntr) body) := by
    rwa [Alone.MessageFits, freshPrefix_own hpid, hr.len] at hfit
  have hserved : (A.memalign c.state.allocs c.state.live).isSome := hA _ _ (by rw [h.only]; rfl)
  obtain ⟨s', hs', hl⟩ := blogLoop_own (n := n) (hr.withCntr c.state.nextCntr) hpid hserved hm
  rw [Alone.step_log h.returned ((bblog_fitting hm).trans hs')]
  cases hl with
  | stored _ hst =>
    refine h.kept hst.ready hst.procPibr hst.live ?_
    rw [hst.trace, freed_append, freed_stored, List.append_nil]
  | swapped hfull hsw hst =>
    -- an empty buffer has room
    have hmsgs : msgs.flatten ≠ [] := by
      intro hnil
      refine hfull ⟨hpid, ?_⟩
      rw [hnil, List.length_nil, Nat.add_zero]
      exact hm
    obtain ⟨hlive, htrace⟩ := hsw.logged hpid hmsgs
    refine h.swapped hst.ready ?_ ?_ ?_
    · rw [hst.procPibr]
      exact fun hp => hsw.fresh (hp ▸ hr.live)
    · rw [hst.live, hlive, hst.procPibr, h.only, List.erase_cons_head]
    · rw [hst.trace, htrace, freed_append, freed_append, freed_written, freed_stored, List.append_nil]

/-- **A signal that finds a record** writes the buffer. -/
theorem Alone.Settled.signal (h : c.Settled) (hA : Serves A) {sig : Nat} (hown : c.Owns (.signal sig)) :
    (c.step A n (.signal sig)).Settled := by
  obtain ⟨hpid, hidx⟩ := hown
  obtain ⟨msgs, hr⟩ := h.ready
  have hmsgs : msgs.flatten ≠ [] := by
    intro hnil
    rw [hr.word_fields.2.2.1, hnil] at hidx
    exact hidx rfl
  obtain ⟨s', hs', hsw⟩ := swapAndFlush_swapped (Process.unnamed_fits (hpid ▸ hr.pid)) hr
    (hA _ _ (by rw [h.only]; rfl))
  rw [Alone.step_signal h.returned ((swapAndFlush_unnamed hpid _).symm.trans hs')]
  obtain ⟨hlive, htrace⟩ := hsw.logged hpid hmsgs
  refine h.swapped hsw.ready (fun hp => hsw.fresh (hp ▸ hr.live)) ?_ ?_
  · rw [hlive, h.only, List.erase_cons_head]
  · rw [htrace, freed_append, freed_written]

theorem Alone.step_fork (h : c.stuck = false) (child : Process) :
    c.step A n (.fork child) = { c with process := child } := by
  simp only [Alone.step, h, Bool.false_eq_true, ↓reduceIte]

/-- A fork leaves the memory. -/
theorem Alone.Clean.fork (h : c.Clean) (child : Process) : (c.step A n (.fork child)).Clean := by
  rw [Alone.step_fork h.returned]
  exact ⟨h.returned, h.only, h.freed⟩

theorem Alone.Settled.fork (h : c.Settled) (child : Process) : (c.step A n (.fork child)).Settled := by
  refine ⟨h.toClean.fork child, ?_⟩
  rw [Alone.step_fork h.returned]
  exact h.ready

/-- **A record of another process** leaves the old buffer. -/
theorem Alone.Settled.log_leaks (h : c.Settled) (hA : Serves A) (he : c.process.Fits) {body : Option (List Char)}
    (hfit : c.MessageFits (.log body)) (hown : ¬ c.Owns (.log body)) : ¬ (c.step A n (.log body)).NoLeak := by
  obtain ⟨msgs, hr⟩ := h.ready
  obtain ⟨s', hs', hl⟩ := blogLoop_logged (n := n) he (hr.withCntr c.state.nextCntr)
    (hA _ _ (by rw [h.only]; rfl)) hfit
  rw [Alone.step_log h.returned ((bblog_fitting hfit).trans hs')]
  cases hl with
  | stored hpid _ => exact absurd hpid hown
  | swapped _ hsw hst =>
    refine h.leaks ?_
    rw [hst.live, (hsw.kept (Or.inl hown)).1, hst.procPibr]

/-- **A signal that finds no record of the process** leaves the old buffer. -/
theorem Alone.Settled.signal_leaks (h : c.Settled) (hA : Serves A) (he : c.process.Fits) {sig : Nat}
    (hown : ¬ c.Owns (.signal sig)) : ¬ (c.step A n (.signal sig)).NoLeak := by
  obtain ⟨msgs, hr⟩ := h.ready
  obtain ⟨s', hs', hsw⟩ := swapAndFlush_swapped he hr (hA _ _ (by rw [h.only]; rfl))
  rw [Alone.step_signal h.returned hs']
  refine h.leaks (hsw.kept ?_).1
  by_contra hkept
  rw [not_or, not_not] at hkept
  refine hown ⟨hkept.1, ?_⟩
  rw [hr.word_fields.2.2.1]
  have hpos := List.length_pos_of_ne_nil hkept.2
  omega

/-! ## Every run -/

/-- A step of a process that owns its buffer. -/
theorem Alone.Settled.step (h : c.Settled) (hA : Serves A) (d : Deed) (hfit : c.MessageFits d) (hown : c.Owns d) :
    (c.step A n d).Settled := by
  cases d with
  | log body => exact h.log hA hfit hown
  | signal sig => exact h.signal hA hown
  | fork child => exact h.fork child

/-- A step of a process with a valid name leaks nothing exactly if the process owns its buffer. -/
theorem Alone.Settled.noLeak_iff (h : c.Settled) (hA : Serves A) (d : Deed) (hfit : c.MessageFits d)
    (he : c.CallerFits d) : c.Owns d ↔ (c.step A n d).NoLeak := by
  refine ⟨fun hown => (h.step hA d hfit hown).noLeak, fun hleak => ?_⟩
  by_contra hown
  cases d with
  | log body => exact h.log_leaks hA he hfit hown hleak
  | signal sig => exact h.signal_leaks hA he hown hleak
  | fork child => exact hown trivial

end Step

/-- A process whose prefix does not fit gets a buffer that belongs to nobody. -/
theorem bblogInit_unfit {A : Allocator} (hA : Serves A) {e : Process} (he : ¬ (prefixText e).length < maxPrefixLen)
    (cntr : Nat) (mem : Nat → Pibr) : ∃ a s, bblogInit A e (.init cntr mem) = s ∧ s.procPibr = a ∧ s.live = [a] ∧
      s.procid = 0 ∧ s.trace = [] := by
  obtain ⟨⟨a, p⟩, ha⟩ := Option.isSome_iff_exists.mp (hA 0 [] (Nat.zero_le 1))
  have hpage := A.page ha
  have ha0 : a ≠ 0 := by have := hpage.1; omega
  have hmod : ¬ a % 4096 ≠ 0 := by simpa using hpage.2.2
  have hpid : ¬ 0 = e.pid := Nat.ne_of_lt e.pos
  refine ⟨a, _, rfl, ?_⟩
  simp [bblogInit, swapBuffers, allocBuffer, State.init, ha, hmod, initBuffer, reinitProcid, hpid, not_lt.mp he, ha0]

/-- `bblog_init` leaks nothing; without a valid prefix the buffer belongs to nobody. -/
theorem Alone.Started.clean {A : Allocator} (hA : Serves A) {c : Alone} (hc : c.Started A) :
    c.Settled ∨ c.Clean ∧ c.state.procid = 0 ∧ ¬ c.process.Fits := by
  obtain ⟨e, cntr, mem, hpid, rfl⟩ := hc
  by_cases he : (prefixText e).length < maxPrefixLen
  · obtain ⟨hr, htrace, -⟩ := bblogInit_running ⟨hpid, he⟩ hA cntr mem
    exact Or.inl ⟨⟨rfl, hr.only, by simp only [htrace, freed, List.filterMap_nil]⟩, [], hr.toReady⟩
  · obtain ⟨a, s, hs, hp, hlive, hprocid, htrace⟩ := bblogInit_unfit hA he cntr mem
    simp only [hs]
    refine Or.inr ⟨⟨rfl, ?_, ?_⟩, hprocid, fun hfits => he hfits.short⟩
    · simp only [hlive, hp]
    · simp only [htrace, freed, List.filterMap_nil]

/-- **No buffer leaks from a process that owns its buffer.** For every run of one thread through `bblog`, signals and
forks, with every record fitting an empty buffer: while the process that calls has a current buffer of its own, with a
record in it if the call is a signal's, the current buffer is all that is allocated between two calls, and every buffer
that was swapped out has been freed once. As long as the prefixes fit, the first step that is otherwise leaks. -/
theorem no_leak (A : Allocator) (hA : Serves A) (c : Alone) (hc : c.Started A) (n : Nat) (ds : List Deed)
    (hfit : EachStep (Alone.step A n) Alone.MessageFits c ds) :
    c.NoLeak ∧
      (EachStep (Alone.step A n) Alone.Owns c ds → EachStep (Alone.step A n) (fun c d => (c.step A n d).NoLeak) c ds) ∧
      (c.process.Fits → EachStep (Alone.step A n) Alone.CallerFits c ds →
        EachStep (Alone.step A n) (fun c d => (c.step A n d).NoLeak) c ds → EachStep (Alone.step A n) Alone.Owns c ds) := by
  refine ⟨?_, fun hown => ?_, fun he hcaller hleak => ?_⟩
  · rcases hc.clean hA with h | ⟨h, -⟩
    · exact h.noLeak
    · exact h.noLeak
  · refine EachStep.inv (I := fun c => c.Settled ∨ c.Clean ∧ c.state.procid = 0) ?_ ?_ (hfit.and hown)
    · rintro c d (h | ⟨h, hz⟩) ⟨hm, ho⟩
      · have h' := h.step (n := n) hA d hm ho
        exact ⟨Or.inl h', h'.noLeak⟩
      · -- nobody owns the buffer
        cases d with
        | log body => exact absurd (hz.symm.trans ho) (Nat.ne_of_lt c.process.pos)
        | signal sig => exact absurd (hz.symm.trans ho.1) (Nat.ne_of_lt c.process.pos)
        | fork child =>
          have h' := h.fork (A := A) (n := n) child
          refine ⟨Or.inr ⟨h', ?_⟩, h'.noLeak⟩
          rw [Alone.step_fork h.returned]
          exact hz
    · exact (hc.clean hA).imp_right fun h => ⟨h.1, h.2.1⟩
  · refine (eachStep_iff_within (I := Alone.Settled) ?_ ?_ ?_ (hfit.and hcaller)).mpr hleak
    · exact fun c d h hV => h.noLeak_iff hA d hV.1 hV.2
    · exact fun c d h hV ho => h.step hA d hV.1 ho
    · exact (hc.clean hA).resolve_right fun h => h.2.2 he

/-! ## Runs -/

/-- After `bblog_init`. -/
def loneApp : Alone := ⟨app, appStarted, [], false⟩

theorem loneApp_started : loneApp.Started twoPages := ⟨app, 0, _, app_fits.pid, rfl⟩

/-- A record and a signal. -/
theorem logged_signal_keeps :
    EachStep (Alone.step twoPages 0) (fun c d => (c.step twoPages 0 d).NoLeak) loneApp [.log (some ['x']), .signal 14] :=
  (no_leak twoPages twoPages_serves loneApp loneApp_started 0 _ (by decide +kernel)).2.1 (by decide +kernel)

/-- **A signal before the first record leaks the buffer, and so does a child that logs.** -/
theorem empty_buffer_leaks : ∃ c, c.Started twoPages ∧
    ∀ ds ∈ [[Deed.signal 14], [.log (some ['x']), .fork ⟨8, app.name, by decide, app.nulFree⟩, .log (some ['y'])]],
      EachStep (Alone.step twoPages 0) Alone.MessageFits c ds ∧
        ¬ EachStep (Alone.step twoPages 0) (fun c d => (c.step twoPages 0 d).NoLeak) c ds :=
  ⟨loneApp, loneApp_started, by decide +kernel⟩

end Cosmost.Bblog
