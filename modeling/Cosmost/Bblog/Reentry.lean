import Cosmost.Bblog.Interrupt

/-!
# A process with one thread, over its whole run

Every event keeps what holds of a process with one thread: a step of the thread (`Solo.Sound.exec`), a signal after which
the handler returns, a call and a fork (`Solo.Sound.step`).

`handler_returns_iff`: in every run of the process, whatever it calls, at whatever steps signals come, and whatever
`memalign` answers: the handler returns, unless the thread holds a reservation on the current buffer and that is still the
buffer of `procid` after the swap.
-/

namespace Cosmost.Bblog

open Cosmost.Lib

/-! ## Steps that leave the current buffer -/

/-- The variables are as they were, and so are the current buffer and its word. -/
structure Alike (s s' : State) : Prop where
  procPibr : s'.procPibr = s.procPibr
  procid : s'.procid = s.procid
  prefixBuf : s'.prefixBuf = s.prefixBuf
  prefixLen : s'.prefixLen = s.prefixLen
  live : s.procPibr ∈ s.live → s.procPibr ∈ s'.live
  word : s.procPibr ∈ s.live → (s'.mem s.procPibr).pibr = (s.mem s.procPibr).pibr

section Alike

variable {s s' : State} {a b : Nat} {w : BitVec 64}

theorem Alike.refl (s : State) : Alike s s := ⟨rfl, rfl, rfl, rfl, id, fun _ => rfl⟩

/-- The text of a buffer is stored. -/
theorem Alike.setBuf (s : State) (a : Nat) (t : Bytes) : Alike s (s.setBuf a t) :=
  ⟨rfl, rfl, rfl, rfl, id, fun _ => setBuf_pibr s a t _⟩

/-- The word of another buffer is. -/
theorem Alike.setWord (ha : a ≠ s.procPibr) : Alike s (s.setWord a w) :=
  ⟨rfl, rfl, rfl, rfl, id, fun _ => by rw [setWord_mem_of_ne _ _ _ (Ne.symm ha)]⟩

/-- Another buffer is freed. -/
theorem Alike.free (ha : a ≠ s.procPibr) : Alike s (s.free a) :=
  ⟨rfl, rfl, rfl, rfl, (List.mem_erase_of_ne (Ne.symm ha)).mpr, fun _ => rfl⟩

theorem Alike.vars (h : Alike s s') (hv : VarsOk s) : VarsOk s' :=
  hv.of_same h.prefixBuf h.prefixLen h.procPibr h.procid

/-- The current buffer, as it is to a thread that holds it as before and has done with `procid` what it was about to. -/
theorem Current.frame {x q : SoloPc} (hc : Current x s) (hp : s'.procPibr = s.procPibr) (hlive : s.procPibr ∈ s'.live)
    (hword : (s'.mem s.procPibr).pibr = (s.mem s.procPibr).pibr) (hused : 0 < s.procid → 0 < s'.procid)
    (hholders : q.role.holders s.procPibr = x.role.holders s.procPibr)
    (hdoomed : q.role.doomed s.procPibr = x.role.doomed s.procPibr)
    (hkeep : q.Replaces s' s.procPibr ∨
      ¬ x.Replaces s s.procPibr ∧ s'.procid = s.procid ∧ s'.prefixLen = s.prefixLen) : Current q s' := by
  refine ⟨by rw [hp]; exact hc.page, by rw [hp]; exact hlive, ?_⟩
  rw [hp, hholders, hdoomed]
  rcases hc.word with hzero | ⟨pid, idx, hpacked, hbehind⟩
  · exact Or.inl (hword.trans hzero)
  · refine Or.inr ⟨pid, idx, hpacked.frame hlive hword (hused hpacked.used), ?_⟩
    rcases hkeep with hrep | ⟨hrep, hpid, hlen⟩
    · exact Or.inl hrep
    · rw [hpid, hlen]
      exact Or.inr (hbehind.resolve_left hrep)

/-- A step after which the variables and the current buffer are as they were. -/
theorem Solo.Sound.alike {c : Solo} {q : SoloPc} (h : c.Sound) (hs : Alike c.state s')
    (hholders : q.role.holders c.state.procPibr = c.pc.role.holders c.state.procPibr)
    (hdoomed : q.role.doomed c.state.procPibr = c.pc.role.doomed c.state.procPibr)
    (hrep : q.Replaces s' c.state.procPibr ∨ ¬ c.pc.Replaces c.state c.state.procPibr)
    (hq : q.At c.process s') : (⟨c.process, q, s'⟩ : Solo).Sound := by
  refine ⟨h.fits, hs.vars h.vars, ?_, hq⟩
  rcases h.current with h0 | hc
  · exact Or.inl (hs.procPibr.trans h0)
  · exact Or.inr (hc.frame hs.procPibr (hs.live hc.live) (hs.word hc.live) (by rw [hs.procid]; exact id) hholders hdoomed
      (hrep.imp_right fun hno => ⟨hno, hs.procid, hs.prefixLen⟩))

end Alike

/-! ## Reserving and giving back -/

section Words

variable {e : Process} {s s' : State} {a p ptr d pid idx : Nat} {m : Record}

theorem VarsOk.setWord (h : VarsOk s) (a : Nat) (w : BitVec 64) : VarsOk (s.setWord a w) := h.of_same rfl rfl rfl rfl

/-- A reservation of which `d` bytes will be given back, none if it fits. -/
theorem Packed.reserved (h : Packed s a 0 0 pid idx)
    (hd : d = 0 ∧ pibrIdx (s.mem a).pibr + m.text.length < loggerEntryMaxPayload - 32 ∨ d = m.text.length) :
    ∃ idx', Packed (s.setWord a ((s.mem a).pibr + m.incr)) a 1 d pid idx' ∧ idx ≤ idx' ∧ idx < idx' + d := by
  have hlen : 0 < m.text.length := by simp [Record.text]
  rcases hd with ⟨rfl, hfit⟩ | rfl
  · rw [(h.word_fields (by omega) (by omega)).2.2] at hfit
    exact ⟨idx + m.text.length, h.take m hfit, by omega, by omega⟩
  · exact ⟨idx, h.miss m, le_rfl, by omega⟩

/-- A thread that holds a buffer replaces none. -/
theorem SoloPc.not_replaces {x : SoloPc} (hx : x.role = .holder ptr d) (s : State) (a : Nat) : ¬ x.Replaces s a := by
  cases x with
  | pc x =>
    cases x with
    | copy _ _ _ | release _ | rollback _ _ => exact not_false
    | _ => cases hx
  | _ => cases hx

/-- `fetch_and_add`, after which the thread holds the buffer. -/
theorem Solo.Sound.reserve {y : SoloPc} (h : (⟨e, .pc (.add m p), s⟩ : Solo).Sound) (hp : Packed s p 0 0 pid idx)
    (hy : y.role = .holder p d)
    (hd : d = 0 ∧ pibrIdx (s.mem p).pibr + m.text.length < loggerEntryMaxPayload - 32 ∨ d = m.text.length)
    (hat : (∃ pid idx, Packed (s.setWord p ((s.mem p).pibr + m.incr)) p 1 d pid idx) →
      y.At e (s.setWord p ((s.mem p).pibr + m.incr))) :
    (⟨e, y, s.setWord p ((s.mem p).pibr + m.incr)⟩ : Solo).Sound := by
  obtain ⟨idx', hp', -⟩ := hp.reserved hd
  by_cases hcur : p = s.procPibr
  · refine ⟨h.fits, h.vars.setWord _ _, ?_, hat ⟨_, _, hp'⟩⟩
    rcases h.current with h0 | hc
    · exact Or.inl h0
    · subst hcur
      obtain ⟨pid₁, idx₁, hpacked, hbehind⟩ := hc.word.resolve_left hp.word_ne
      obtain ⟨hpid, hlen, -⟩ : pid₁ = s.procid ∧ s.prefixLen ≤ idx₁ ∧ _ := hbehind.resolve_left not_false
      obtain ⟨idx₂, hpacked', hle, hlt⟩ := Packed.reserved (m := m) hpacked hd
      have hholders : y.role.holders s.procPibr = 1 := by simp [hy]
      have hdoomed : y.role.doomed s.procPibr = d := by simp [hy]
      refine Or.inr ⟨hc.page, hc.live, Or.inr ⟨pid₁, idx₂, ?_, Or.inr ⟨hpid, le_trans hlen hle, ?_⟩⟩⟩
      · exact (congrArg₂ (Packed _ _ · · _ _) hholders hdoomed).mpr hpacked'
      · exact (congrArg₂ (s.prefixLen + · ≤ idx₂ + ·) hholders hdoomed).mpr (by omega)
  · refine h.alike (.setWord hcur) ?_ ?_ (Or.inr not_false) (hat ⟨_, _, hp'⟩)
    · rw [hy]
      exact if_neg hcur
    · rw [hy]
      exact if_neg hcur

/-- `fetch_and_sub`, after which it does not. -/
theorem Solo.Sound.giveBack {x y : SoloPc} {v : BitVec 64} (h : (⟨e, x, s⟩ : Solo).Sound) (hp : Packed s ptr 1 d pid idx)
    (hx : x.role = .holder ptr d) (hy : y.role = .outside) (hv : v.toNat = d * 2 ^ 32 + 1) (hd : d ≤ bufferSize)
    (hat : y.At e (s.setWord ptr ((s.mem ptr).pibr - v))) :
    (⟨e, y, s.setWord ptr ((s.mem ptr).pibr - v)⟩ : Solo).Sound := by
  have hrep := SoloPc.not_replaces hx s
  by_cases hcur : ptr = s.procPibr
  · refine ⟨h.fits, h.vars.setWord _ _, ?_, hat⟩
    rcases h.current with h0 | hc
    · exact Or.inl h0
    · subst hcur
      obtain ⟨pid₁, idx₁, hpacked, hbehind⟩ := hc.word.resolve_left hp.word_ne
      obtain ⟨hpid, hlen, -⟩ := hbehind.resolve_left (hrep _)
      simp only [hx, Role.holders, Role.doomed, ↓reduceIte] at hpacked
      refine Or.inr ⟨hc.page, hc.live, Or.inr ⟨pid₁, idx₁, ?_, Or.inr ⟨hpid, hlen, ?_⟩⟩⟩
      · rw [hy]
        exact hpacked.drop hv hd
      · rw [hy]
        exact hlen
  · refine h.alike (.setWord hcur) ?_ ?_ (Or.inr (hrep _)) hat
    · simp [hx, hy, hcur]
    · simp [hx, hy, hcur]

end Words

/-! ## A new buffer -/

section Alloc

variable {A : Allocator} {e : Process} {s s' : State} {a curr new old : Nat} {k : Option Record} {q : SoloPc}

theorem Mine.ne (h : Mine s a) : a ≠ s.procPibr := h.2.2

theorem Kept.frame (h : Kept s a) (hlive : a ∈ s.live → a ∈ s'.live) (hgone : Gone s a → a ∈ s'.live ∨ Gone s' a) :
    Kept s' a :=
  h.imp_right fun ⟨hpage, ha⟩ => ⟨hpage, ha.elim (fun ha => Or.inl (hlive ha)) hgone⟩

/-- `memalign`, and its block if there is one. -/
theorem Solo.Sound.alloc (h : (⟨e, .pc (.alloc k curr), s⟩ : Solo).Sound)
    (hok : soloExec A e (.pc (.alloc k curr)) s = .ok (q, s')) : (⟨e, q, s'⟩ : Solo).Sound := by
  obtain ⟨hkept, hbehind⟩ := h.here
  simp only [soloExec] at hok
  cases hA : A.memalign s.allocs s.live with
  | none =>
    rw [hA] at hok
    cases hok
    exact h.alike ⟨rfl, rfl, rfl, rfl, id, fun _ => rfl⟩ rfl rfl (Or.inr not_false) hkept
  | some x =>
    obtain ⟨a, p⟩ := x
    have hpage := A.page hA
    have hfresh := A.fresh hA
    rw [hA] at hok
    simp only [hpage.2.2, ne_eq, not_true, ↓reduceIte] at hok
    cases hok
    have hmem : ∀ b, b ≠ a → Function.update s.mem a p b = s.mem b := fun b hb => Function.update_of_ne hb ..
    have hcur : a ≠ s.procPibr := by
      rintro rfl
      rcases h.current with h0 | hc
      · exact absurd h0 (Nat.pos_iff_ne_zero.mp hpage.1)
      · exact hfresh hc.live
    refine h.alike ⟨rfl, rfl, rfl, rfl, List.mem_cons_of_mem _, fun _ => ?_⟩ rfl rfl (Or.inr not_false)
      ⟨?_, ⟨hpage, List.mem_cons_self, hcur⟩, hbehind⟩
    · simp only [hmem _ (Ne.symm hcur)]
    · refine hkept.frame (List.mem_cons_of_mem _) fun hgone => ?_
      by_cases ha : curr = a
      · exact Or.inl (ha ▸ List.mem_cons_self)
      · exact Or.inr ⟨hgone.1, by simp only [hmem _ ha]; exact hgone.2⟩

/-- `reinit_procid` makes a prefix, if the process has a new pid. -/
theorem Solo.Sound.reinit (h : (⟨e, .reinit k curr new, s⟩ : Solo).Sound)
    (hok : soloExec A e (.reinit k curr new) s = .ok (q, s')) : (⟨e, q, s'⟩ : Solo).Sound := by
  obtain ⟨hkept, hmine, hbehind⟩ := h.here
  have hshort := h.fits.short
  simp only [soloExec] at hok
  split_ifs at hok with hpid hlong
  · cases hok
    exact h.alike (.refl s) rfl rfl (Or.inr not_false) ⟨hkept, hmine, hpid⟩
  · exact absurd hlong (not_le.mpr hshort)
  · cases hok
    refine ⟨h.fits, ⟨⟨?_, hshort⟩, h.vars.pid_le, fun _ => length_prefixText_pos e, h.vars.used⟩, ?_,
      hkept, hmine, hbehind, hpid, length_prefixText_pos e⟩
    · simp only [fits_eq hshort]
    · rcases h.current with h0 | hc
      · exact Or.inl h0
      · refine Or.inr (hc.frame rfl hc.live rfl id rfl rfl (Or.inl ⟨?_, rfl⟩))
        -- the buffer of the old pid is the one that is replaced
        refine ((hbehind hpid).resolve_left ?_).symm
        exact Nat.pos_iff_ne_zero.mp hc.page.1

/-- It stores the pid, unless a handler was first. -/
theorem Solo.Sound.prefixed (h : (⟨e, .prefixed k curr new old, s⟩ : Solo).Sound)
    (hok : soloExec A e (.prefixed k curr new old) s = .ok (q, s')) : (⟨e, q, s'⟩ : Solo).Sound := by
  obtain ⟨hkept, hmine, hbehind, hold, hlen⟩ := h.here
  simp only [soloExec] at hok
  split_ifs at hok with hpid
  · cases hok
    refine ⟨h.fits, ⟨⟨h.vars.len, h.vars.short⟩, h.fits.pid, fun _ => hlen, fun _ => e.pos⟩, ?_,
      hkept.frame id fun hgone => Or.inr ⟨e.pos, hgone.2⟩, hmine, rfl⟩
    rcases h.current with h0 | hc
    · exact Or.inl h0
    · refine Or.inr (hc.frame rfl hc.live rfl (fun _ => e.pos) rfl rfl (Or.inl ?_))
      refine ((hbehind (hpid ▸ hold)).resolve_left ?_).symm
      exact Nat.pos_iff_ne_zero.mp hc.page.1
  · cases hok
    exact h.alike (.refl s) rfl rfl (Or.inr fun hrep => hpid hrep.2) ⟨hkept, hmine, hbehind⟩

/-- `init_buffer` stores prefix and word. -/
theorem Solo.Sound.fill (h : (⟨e, .fill k curr new, s⟩ : Solo).Sound)
    (hok : soloExec A e (.fill k curr new) s = .ok (q, s')) : (⟨e, q, s'⟩ : Solo).Sound := by
  obtain ⟨hkept, hmine, hpid⟩ := h.here
  cases hok
  have hword : ∀ b, b ≠ new → (((s.setBuf new (strcpy (s.mem new).buf 0 s.prefixBuf)).setWord new
      (packBuffer new e.pid s.prefixLen 0)).mem b).pibr = (s.mem b).pibr := by
    intro b hb
    rw [setWord_mem_of_ne _ _ _ hb, setBuf_pibr]
  refine h.alike ⟨rfl, rfl, rfl, rfl, id, fun _ => hword _ (Ne.symm hmine.2.2)⟩ rfl rfl ?_ ⟨?_, hmine, hpid, ?_⟩
  · exact (em (curr = s.procPibr)).imp id id
  · refine hkept.frame id fun hgone => ?_
    by_cases ha : curr = new
    · exact Or.inl (ha ▸ hmine.2.1)
    · exact Or.inr ⟨hgone.1, (hword _ ha).trans hgone.2⟩
  · exact .of_pack hmine.1 hmine.2.1 h.fits.pid (h.vars.pos (hpid ▸ e.pos)) h.vars.short (by rw [setWord_mem_self]; rfl)
      (hpid ▸ e.pos)

end Alloc

/-! ## Swapping and flushing -/

section Swap

variable {A : Allocator} {e : Process} {s s' : State} {curr new ptr : Nat} {k : Option Record} {q : SoloPc}

/-- Out of `swap_and_flush_buffer` a thread has nothing in hand. -/
theorem SoloPc.at_next (e : Process) (s : State) (k : Option Record) : SoloPc.At e s (.pc (.next k)) := by
  cases k <;> trivial

/-- After a swap it flushes the old buffer, if there was one. -/
theorem SoloPc.at_swapped (h : curr ≠ 0 → Page curr ∧ (Mine s curr ∨ Gone s curr)) :
    SoloPc.At e s (.pc (.swapped k curr)) := by
  unfold Pc.swapped
  split_ifs with hcurr
  · obtain ⟨hpage, hmine⟩ := h hcurr
    rw [pibrPtr_page hpage]
    exact hmine.imp_right fun hgone => ⟨hpage, Or.inl hgone⟩
  · exact SoloPc.at_next e s k

/-- And holds none. -/
theorem swapped_holders (hpage : curr ≠ 0 → Page curr) (k : Option Record) (b : Nat) :
    (Pc.swapped k curr).role.holders b = 0 ∧ (Pc.swapped k curr).role.doomed b = 0 := by
  rw [swapped_role hpage]
  split_ifs <;> exact ⟨rfl, rfl⟩

/-- The compare-and-swap of `proc_pibr`. -/
theorem Solo.Sound.install (h : (⟨e, .pc (.install k curr new), s⟩ : Solo).Sound)
    (hok : soloExec A e (.pc (.install k curr new)) s = .ok (q, s')) : (⟨e, q, s'⟩ : Solo).Sound := by
  obtain ⟨hkept, hmine, hpid, hpacked⟩ := h.here
  simp only [soloExec, exec] at hok
  split_ifs at hok with hcurr
  · cases hok
    have hused : 0 < s.procid := hpid ▸ e.pos
    obtain ⟨hholders, hdoomed⟩ := swapped_holders (fun h0 => (hkept.resolve_left h0).1) k new
    refine ⟨h.fits, ⟨⟨h.vars.len, h.vars.short⟩, h.vars.pid_le, h.vars.pos, fun _ => hused⟩, Or.inr ?_, ?_⟩
    · refine ⟨hmine.1, hmine.2.1, Or.inr ⟨e.pid, s.prefixLen, ?_, Or.inr ⟨hpid.symm, le_rfl, ?_⟩⟩⟩
      · simp only [SoloPc.role, hholders, hdoomed]
        exact hpacked.frame hmine.2.1 rfl hused
      · simp only [SoloPc.role, hholders, hdoomed]
        exact le_rfl
    · refine SoloPc.at_swapped fun h0 => ?_
      subst hcurr
      have hc : Current _ s := h.current.resolve_left h0
      exact ⟨hc.page, Or.inl ⟨hc.page, hc.live, Ne.symm hmine.2.2⟩⟩
  · cases hok
    exact h.alike (.refl s) rfl rfl (Or.inr (Ne.symm hcurr)) hmine

/-- `fetch_and_and` of `proc_pibr`, where `memalign` failed. -/
theorem Solo.Sound.fallback (h : (⟨e, .pc (.fallback k curr), s⟩ : Solo).Sound) :
    (⟨e, .pc (.swapped k curr), { s with procPibr := 0 }⟩ : Solo).Sound := by
  refine ⟨h.fits, ⟨⟨h.vars.len, h.vars.short⟩, h.vars.pid_le, h.vars.pos, fun h0 => absurd rfl h0⟩, Or.inl rfl, ?_⟩
  refine SoloPc.at_swapped fun h0 => ?_
  obtain ⟨hpage, hkept⟩ := Or.resolve_left h.here h0
  exact ⟨hpage, hkept.imp (fun hlive => ⟨hpage, hlive, h0⟩) id⟩

/-- The thread leaves `swap_and_flush_buffer`. -/
theorem Solo.Sound.next {x : SoloPc} (h : (⟨e, x, s⟩ : Solo).Sound) (hs : Alike s s')
    (hholders : x.role.holders s.procPibr = 0) (hdoomed : x.role.doomed s.procPibr = 0)
    (hrep : ¬ x.Replaces s s.procPibr) (k : Option Record) : (⟨e, .pc (.next k), s'⟩ : Solo).Sound := by
  have hrole : SoloPc.role (.pc (.next k)) = .outside := role_next k
  refine h.alike hs ?_ ?_ (Or.inr hrep) (SoloPc.at_next e s' k)
  · rw [hrole]
    exact hholders.symm
  · rw [hrole]
    exact hdoomed.symm

/-- `flush_buffer` reads the pid of the buffer. -/
theorem Solo.Sound.readPid (h : (⟨e, .pc (.readPid k ptr), s⟩ : Solo).Sound)
    (hok : soloExec A e (.pc (.readPid k ptr)) s = .ok (q, s')) : (⟨e, q, s'⟩ : Solo).Sound := by
  simp only [soloExec, exec] at hok
  split_ifs at hok with hptr hpid <;> cases hok
  · exact h.next (.refl s) rfl rfl not_false k
  · refine h.alike (.refl s) rfl rfl (Or.inr not_false) ?_
    rcases h.here with hmine | ⟨hpage, hgone | hblank⟩
    · exact Or.inl hmine
    · have hzero : pibrPid 0 = 0 := by decide
      rw [hgone.2, hzero] at hpid
      exact absurd hpid (Nat.pos_iff_ne_zero.mp hgone.1)
    · exact Or.inr ⟨hpage, hblank⟩
  · exact h.next (.refl s) rfl rfl not_false k

/-- And its index. -/
theorem Solo.Sound.sample {pid : Nat} (h : (⟨e, .pc (.sample k ptr pid), s⟩ : Solo).Sound)
    (hok : soloExec A e (.pc (.sample k ptr pid)) s = .ok (q, s')) : (⟨e, q, s'⟩ : Solo).Sound := by
  simp only [soloExec, exec] at hok
  split_ifs at hok with hidx <;> cases hok
  · exact h.next (.refl s) rfl rfl not_false k
  · refine h.alike (.refl s) rfl rfl (Or.inr not_false) ?_
    exact Or.resolve_right h.here fun hblank => hidx hblank.2.2.symm

/-- The compare-and-swap loop. -/
theorem Solo.Sound.cas {pid idx : Nat} (h : (⟨e, .pc (.cas k ptr pid idx), s⟩ : Solo).Sound)
    (hok : soloExec A e (.pc (.cas k ptr pid idx)) s = .ok (q, s')) : (⟨e, q, s'⟩ : Solo).Sound := by
  have hmine : Mine s ptr := h.here
  simp only [soloExec, exec] at hok
  split_ifs at hok <;> cases hok
  · exact h.alike (.setWord hmine.2.2) rfl rfl (Or.inr not_false) hmine
  · exact h.alike (.refl s) rfl rfl (Or.inr not_false) hmine

end Swap

/-! ## Every event -/

section Events

variable {α : Type*} {A : Allocator} {e : Process} {s s' : State} {q : SoloPc}

/-- A call that returns. -/
theorem toOption_eq_some {r : Except Stuck α} {a : α} (h : r.toOption = some a) : r = .ok a := by
  cases r with
  | error _ => cases h
  | ok _ => exact congrArg Except.ok (Option.some.inj h)

/-- `fetch_and_add` on what the thread read from `proc_pibr`. -/
theorem Solo.Sound.add {m : Record} {p : Nat} (h : (⟨e, .pc (.add m p), s⟩ : Solo).Sound)
    (hok : soloExec A e (.pc (.add m p)) s = .ok (q, s')) : (⟨e, q, s'⟩ : Solo).Sound := by
  have hfault : p = 0 ∨ (s.mem p).pibr = 0 → (⟨e, q, s'⟩ : Solo).Sound := by
    intro hfault
    simp only [soloExec, exec_add_fault A e m hfault] at hok
    cases hok
  rcases h.here with h0 | hgone | ⟨pid, idx, hp⟩
  · exact hfault (Or.inl h0)
  · exact hfault (Or.inr hgone.2)
  · simp only [soloExec] at hok
    rcases exec_add_of A e m hp.ne_zero (hp.word_fields (by omega) (by omega)).1 with ⟨hfit, hexec⟩ | ⟨-, hexec⟩
    · rw [hexec] at hok
      cases hok
      exact h.reserve hp rfl (Or.inl ⟨rfl, hfit.2⟩) id
    · rw [hexec] at hok
      cases hok
      exact h.reserve hp rfl (Or.inr rfl) id

/-- **A step of the thread keeps what holds.** -/
theorem Solo.Sound.exec {x : SoloPc} (h : (⟨e, x, s⟩ : Solo).Sound) (hok : soloExec A e x s = .ok (q, s')) :
    (⟨e, q, s'⟩ : Solo).Sound := by
  cases x with
  | reinit k curr new => exact h.reinit hok
  | prefixed k curr new old => exact h.prefixed hok
  | fill k curr new => exact h.fill hok
  | pc x =>
    cases x with
    | idle =>
      cases hok
      exact h
    | load m =>
      cases hok
      refine h.alike (.refl s) rfl rfl (Or.inr not_false) ?_
      rcases h.current with h0 | hc
      · exact Or.inl h0
      · rcases hc.word with hzero | ⟨pid, idx, hp, -⟩
        · exact Or.inr (Or.inl ⟨h.vars.used (Nat.pos_iff_ne_zero.mp hc.page.1), hzero⟩)
        · exact Or.inr (Or.inr ⟨pid, idx, hp⟩)
    | add m p => exact h.add hok
    | copy m ptr idx =>
      cases hok
      obtain ⟨pid, idx', hp⟩ := h.here
      exact h.alike ⟨rfl, rfl, rfl, rfl, id, fun _ => setBuf_pibr s ptr _ _⟩ rfl rfl (Or.inr not_false)
        ⟨pid, idx', hp.frame hp.live (setBuf_pibr s ptr _ ptr) hp.used⟩
    | release ptr =>
      obtain ⟨pid, idx, hp⟩ := h.here
      simp only [soloExec, exec_release_eq, if_neg hp.ne_zero] at hok
      cases hok
      exact h.giveBack hp rfl rfl (by decide) (Nat.zero_le _) trivial
    | rollback m ptr =>
      obtain ⟨pid, idx, hp⟩ := h.here
      have hlen := length_text_lt m
      have hincr := incr_toNat (show m.text.length < 2 ^ 16 by rw [bufferSize_eq] at hlen; omega)
      simp only [soloExec, exec_rollback_eq, if_neg hp.ne_zero] at hok
      cases hok
      exact h.giveBack hp rfl rfl hincr (Nat.le_of_lt hlen) (Or.inr ⟨hp.page, Or.inl hp.live⟩)
    | loadFlush =>
      cases hok
      refine h.alike (.refl s) rfl rfl (Or.inr not_false) ?_
      exact h.current.imp_right fun hc => ⟨hc.page, Or.inl hc.live⟩
    | check k curr =>
      simp only [soloExec, Bblog.exec] at hok
      split_ifs at hok with hcurr <;> cases hok
      · exact h.alike (.refl s) rfl rfl (Or.inr not_false) ⟨h.here, fun _ => Or.inr hcurr⟩
      · exact h.next (.refl s) rfl rfl not_false k
    | alloc k curr => exact h.alloc hok
    | fallback k curr =>
      cases hok
      exact h.fallback
    | install k curr new => exact h.install hok
    | discard k new =>
      cases hok
      exact h.next (.free (Mine.ne h.here)) rfl rfl not_false k
    | readPid k ptr => exact h.readPid hok
    | sample k ptr pid => exact h.sample hok
    | cas k ptr pid idx => exact h.cas hok
    | close k ptr idx =>
      simp only [soloExec, Bblog.exec] at hok
      split_ifs at hok <;> cases hok
      exact h.alike (.setBuf s ptr _) rfl rfl (Or.inr not_false) h.here
    | write k ptr =>
      cases hok
      exact h.alike ⟨rfl, rfl, rfl, rfl, id, fun _ => rfl⟩ rfl rfl (Or.inr not_false) h.here
    | free k ptr =>
      cases hok
      exact h.next (.free (Mine.ne h.here)) rfl rfl not_false k

theorem Solo.Started.sound {c : Solo} (h : c.Started) : c.Sound := by
  obtain ⟨hfits, hidle, cntr, mem, hstate⟩ := h
  refine ⟨hfits, ?_, Or.inl (by rw [hstate]; rfl), by rw [hidle]; trivial⟩
  rw [hstate]
  exact ⟨prefixOk_init cntr mem, Nat.zero_le _, fun h0 => absurd h0 (Nat.lt_irrefl 0), fun h0 => absurd rfl h0⟩

/-- A handler that returns. -/
theorem Solo.Sound.handled {c : Solo} (h : c.Sound) (hs : Handled c.process c.state s') :
    (⟨c.process, c.pc, s'⟩ : Solo).Sound := by
  refine ⟨h.fits, hs.vars, ?_, hs.at h.here⟩
  rcases c.pc.role_cases c.state s'.procPibr with ⟨hr, hd⟩ | ⟨hr, -⟩
  · exact hs.current c.pc hr hd
  · -- the thread does not hold a buffer that the handler allocated
    left
    by_contra hp
    obtain ⟨pid, idx, hpacked⟩ := h.here.held hr
    exact (hs.fresh hp).1 hpacked.live

/-- `bblog_exit(1)` takes the word away. -/
theorem Solo.Sound.exit (h : (⟨e, .pc .idle, s⟩ : Solo).Sound) (hp : s.procPibr ≠ 0) :
    (⟨e, .pc (if (s.mem s.procPibr).pibr ≠ 0 ∧ pibrPtr (s.mem s.procPibr).pibr ≠ 0
        then .readPid none (pibrPtr (s.mem s.procPibr).pibr) else .idle), s.setWord s.procPibr 0⟩ : Solo).Sound := by
  have hc : Current _ s := h.current.resolve_left hp
  have hzero : ((s.setWord s.procPibr 0).mem s.procPibr).pibr = 0 := by rw [setWord_mem_self]
  refine ⟨h.fits, h.vars.setWord _ _, Or.inr ⟨hc.page, hc.live, Or.inl hzero⟩, ?_⟩
  split_ifs with hgo
  · obtain ⟨pid, idx, hpacked, -⟩ := hc.word.resolve_left hgo.1
    have hptr := (hpacked.word_fields (by simp [SoloPc.role, Pc.role]) (Nat.zero_le _)).1
    rw [hptr]
    exact Or.inr ⟨hc.page, Or.inl ⟨h.vars.used hp, hzero⟩⟩
  · trivial

/-- **Every event keeps what holds.** -/
theorem Solo.Sound.step {c c' : Solo} {ev : SoloEvent} (h : c.Sound) (hev : ev.Fits) (hstep : c.step A ev = some c') :
    c'.Sound := by
  obtain ⟨e, x, s⟩ := c
  cases ev with
  | init =>
    obtain ⟨rfl, ⟨⟩⟩ := Option.ite_none_right_eq_some.mp hstep
    exact h.alike (.refl s) rfl rfl (Or.inr not_false) (Or.inl rfl)
  | blog m =>
    obtain ⟨rfl, ⟨⟩⟩ := Option.ite_none_right_eq_some.mp hstep
    exact h.alike (.refl s) rfl rfl (Or.inr not_false) trivial
  | exit =>
    obtain ⟨⟨rfl, hp⟩, ⟨⟩⟩ := Option.ite_none_right_eq_some.mp hstep
    exact h.exit hp
  | fork child =>
    obtain ⟨rfl, ⟨⟩⟩ := Option.ite_none_right_eq_some.mp hstep
    exact ⟨hev, h.vars, h.current, trivial⟩
  | signal sig =>
    obtain ⟨s', hs', rfl⟩ := Option.map_eq_some_iff.mp hstep
    have hexit := toOption_eq_some hs'
    obtain ⟨hwaits, hreturns⟩ := h.handler (A := A) sig
    by_cases hw : Solo.Waits A ⟨e, x, s⟩
    · cases (hwaits hw).symm.trans hexit
    · obtain ⟨s₁, hs₁, hhandled⟩ := hreturns hw
      cases hs₁.symm.trans hexit
      exact h.handled hhandled
  | run =>
    simp only [Solo.step] at hstep
    split_ifs at hstep
    obtain ⟨⟨q, s'⟩, hs', rfl⟩ := Option.map_eq_some_iff.mp hstep
    exact h.exec (toOption_eq_some hs')

end Events

/-- **When a handler returns.** In every run of a process with one thread, whatever it calls, at whatever steps signals
come, and whatever `memalign` answers: the handler of a signal returns exactly if the interrupted thread is not between
its `fetch_and_add` and its `fetch_and_sub` on the current buffer, or the handler does not flush that. Else it waits for
ever. -/
theorem handler_returns_iff (A : Allocator) (c : Solo) (hc : Reach (Solo.step A) (fun _ ev => ev.Fits) Solo.Started c)
    (sig : Nat) :
    ((∃ s', bblogExit A c.process (-((sig : Int) + 1)) c.state = .ok s') ↔ ¬ c.Waits A) ∧
      (c.Waits A → bblogExit A c.process (-((sig : Int) + 1)) c.state = .error .spins) := by
  have h : c.Sound := Reach.inv (fun _ h => h.sound) (fun _ _ _ h hev hstep => h.step hev hstep) hc
  obtain ⟨hwaits, hreturns⟩ := h.handler (A := A) sig
  refine ⟨⟨?_, fun hw => ?_⟩, hwaits⟩
  · rintro ⟨s', hs'⟩ hw
    cases (hwaits hw).symm.trans hs'
  · obtain ⟨s', hs', -⟩ := hreturns hw
    exact ⟨s', hs'⟩

/-! ## A handler that returns, and one that does not -/

/-- The process `app` before it logs. -/
def appAlone : Solo := ⟨app, .pc .idle, .init 0 fun _ => ⟨0, fun _ => nul⟩⟩

theorem appAlone_started : appAlone.Started := ⟨app_fits, rfl, 0, _, rfl⟩

/-- A child of `app`. -/
def appChild : Process := { app with pid := 8, pos := by decide }

/-- `app` has a buffer, and forks; a signal comes when the child is about to give back its reservation on the buffer of
`app`. -/
theorem signal_on_inherited : ∃ c, Reach (Solo.step twoPages) (fun _ ev => ev.Fits) Solo.Started c ∧
    c.pc.Holding c.state.procPibr ∧ ∃ s', bblogExit twoPages c.process (-14) c.state = .ok s' := by
  have hrun : (runAll (Solo.step twoPages) (fun _ ev => ev.Fits) appAlone
      (.init :: List.replicate 6 .run ++ .fork appChild :: .blog (filler 9 (by decide)) :: [.run, .run])).any
      (fun c => c.pc.Holding c.state.procPibr ∧ ¬ c.Waits twoPages) = true := by decide +kernel
  obtain ⟨c, hc, hp⟩ := Reach.of_runAll (show Solo.Started appAlone from appAlone_started) _ _ hrun
  obtain ⟨hholding, hw⟩ := of_decide_eq_true hp
  exact ⟨c, hc, hholding, (handler_returns_iff twoPages c hc 13).1.mpr hw⟩

/-- **A handler waits for its own thread**: the signal comes after the `fetch_and_add`. -/
theorem signal_after_reservation : ∃ c, Reach (Solo.step twoPages) (fun _ ev => ev.Fits) Solo.Started c ∧
    c.pc = .pc (.copy (filler 9 (by decide)) 4096 31) ∧ bblogExit twoPages c.process (-14) c.state = .error .spins := by
  have hrun : (runAll (Solo.step twoPages) (fun _ ev => ev.Fits) appAlone
      (.init :: List.replicate 6 .run ++ .blog (filler 9 (by decide)) :: [.run, .run])).any
      (fun c => c.pc = .pc (.copy (filler 9 (by decide)) 4096 31) ∧
        (bblogExit twoPages c.process (-14) c.state).map (fun _ => ()) = .error .spins) = true := by decide +kernel
  obtain ⟨c, hc, hp⟩ := Reach.of_runAll (show Solo.Started appAlone from appAlone_started) _ _ hrun
  obtain ⟨hpc, hspins⟩ := of_decide_eq_true hp
  refine ⟨c, hc, hpc, ?_⟩
  cases hexit : bblogExit twoPages c.process (-14) c.state with
  | error x =>
    rw [hexit] at hspins
    rw [Except.error.inj hspins]
  | ok s =>
    rw [hexit] at hspins
    cases hspins

end Cosmost.Bblog
