import Cosmost.Bblog.Solo
import Cosmost.Bblog.Calls

/-!
# Does the handler's flush wait for its own thread?

The handler swaps the current buffer out and flushes it, and its compare-and-swap loop waits until no thread holds the
buffer. If the signal came between the `fetch_and_add` and the `fetch_and_sub` of the interrupted thread on this buffer,
that is the thread itself, and the wait does not end.

`Solo.Sound` says what holds of the process at each point of its thread, `Handled` what a handler that returns leaves, and
`Solo.Sound.handler` when it returns.
-/

namespace Cosmost.Bblog

open Cosmost.Lib

/-! ## The word of a buffer -/

/-- The buffer is allocated, and its word says pid, index, address and the number of threads that hold it; `d` of the
bytes before the index will be given back. -/
structure Packed (s : State) (a r d pid idx : Nat) : Prop where
  page : Page a
  live : a ∈ s.live
  word : (s.mem a).pibr.toNat = fields pid (idx + d) a r
  pid_le : pid ≤ pidMax
  pos : 0 < idx
  room : idx < loggerEntryMaxPayload - 32
  used : 0 < s.procid

section Packed

variable {s s' : State} {a r d pid idx : Nat}

/-- What does not touch the word. -/
theorem Packed.frame (h : Packed s a r d pid idx) (hlive : a ∈ s'.live) (hword : (s'.mem a).pibr = (s.mem a).pibr)
    (hused : 0 < s'.procid) : Packed s' a r d pid idx :=
  ⟨h.page, hlive, by rw [hword]; exact h.word, h.pid_le, h.pos, h.room, hused⟩

theorem Packed.ne_zero (h : Packed s a r d pid idx) : a ≠ 0 := by
  have := h.page.1
  omega

theorem Packed.word_ne (h : Packed s a r d pid idx) : (s.mem a).pibr ≠ 0 := by
  intro hw
  have hword := h.word
  have hpage := h.page.1
  have hzero : (0 : BitVec 64).toNat = 0 := rfl
  rw [hw, hzero, fields] at hword
  omega

/-- The number of holders is in the low bits. -/
theorem Packed.holders_eq {r' d' pid' idx' : Nat} (h : Packed s a r d pid idx) (h' : Packed s a r' d' pid' idx')
    (hr : r < 2 ^ 12) (hr' : r' < 2 ^ 12) : r = r' := by
  have hword := h.word.symm.trans h'.word
  have hpage := h.page.2.2
  rw [fields, fields] at hword
  omega

theorem Packed.of_pack (hpage : Page a) (hlive : a ∈ s.live) (hpid : pid ≤ pidMax) (hpos : 0 < idx)
    (hidx : idx < maxPrefixLen) (hword : (s.mem a).pibr = packBuffer a pid idx 0) (hused : 0 < s.procid) :
    Packed s a 0 0 pid idx := by
  rw [maxPrefixLen_eq] at hidx
  refine ⟨hpage, hlive, ?_, hpid, hpos, by rw [loggerEntryMaxPayload_eq]; omega, hused⟩
  rw [hword]
  exact packBuffer_toNat hpid (Or.inl hpage) (by omega) (by omega)

/-- The fields of the word. -/
theorem Packed.word_fields (h : Packed s a r d pid idx) (hr : r < 2 ^ 12) (hd : d ≤ bufferSize) :
    pibrPtr (s.mem a).pibr = a ∧ pibrPid (s.mem a).pibr = pid ∧ pibrIdx (s.mem a).pibr = idx + d := by
  have hroom := h.room
  rw [loggerEntryMaxPayload_eq] at hroom
  rw [bufferSize_eq] at hd
  refine ⟨pibrPtr_of h.word h.page hr, ?_, ?_⟩
  · rw [pibrPid_of h.word h.page hr]
    omega
  · rw [pibrIdx_of h.word h.page hr]
    omega

/-- The word is that of a buffer that nobody holds exactly if nobody does. -/
theorem Packed.word_iff (h : Packed s a r d pid idx) (hr : r < 2 ^ 12) (hd : d ≤ bufferSize) :
    (s.mem a).pibr = packBuffer a pid (idx + d) 0 ↔ r = 0 := by
  have hroom := h.room
  rw [loggerEntryMaxPayload_eq] at hroom
  rw [bufferSize_eq] at hd
  have hpack := packBuffer_toNat h.pid_le (Or.inl h.page) (show idx + d < 2 ^ 16 by omega) (show 0 < 2 ^ 12 by omega)
  have hword := h.word
  constructor
  · intro heq
    rw [heq, hpack, fields, fields] at hword
    omega
  · rintro rfl
    exact BitVec.eq_of_toNat_eq (hword.trans hpack.symm)

/-- A reservation. -/
theorem Packed.reserve (h : Packed s a 0 0 pid idx) (m : Record) :
    ((s.setWord a ((s.mem a).pibr + m.incr)).mem a).pibr.toNat = fields pid (idx + m.text.length) a 1 := by
  have hlen := length_text_lt m
  have hroom := h.room
  have hpid := h.pid_le
  have hpage := h.page.2.1
  have hword := h.word
  have hincr := incr_toNat (show m.text.length < 2 ^ 16 by rw [bufferSize_eq] at hlen; omega)
  rw [loggerEntryMaxPayload_eq] at hroom
  rw [pidMax_eq] at hpid
  rw [bufferSize_eq] at hlen
  rw [setWord_mem_self]
  simp only [Record.incr]
  rw [BitVec.toNat_add, hword, hincr, fields, fields]
  omega

/-- A reservation that fits. -/
theorem Packed.take (h : Packed s a 0 0 pid idx) (m : Record)
    (hfit : idx + m.text.length < loggerEntryMaxPayload - 32) :
    Packed (s.setWord a ((s.mem a).pibr + m.incr)) a 1 0 pid (idx + m.text.length) :=
  ⟨h.page, h.live, h.reserve m, h.pid_le, Nat.add_pos_left h.pos _, hfit, h.used⟩

/-- One that will be given back. -/
theorem Packed.miss (h : Packed s a 0 0 pid idx) (m : Record) :
    Packed (s.setWord a ((s.mem a).pibr + m.incr)) a 1 m.text.length pid idx :=
  ⟨h.page, h.live, h.reserve m, h.pid_le, h.pos, h.room, h.used⟩

/-- A reservation is given back, with the bytes that did not fit. -/
theorem Packed.drop (h : Packed s a 1 d pid idx) {v : BitVec 64} (hv : v.toNat = d * 2 ^ 32 + 1) (hd : d ≤ bufferSize) :
    Packed (s.setWord a ((s.mem a).pibr - v)) a 0 0 pid idx := by
  refine ⟨h.page, h.live, ?_, h.pid_le, h.pos, h.room, h.used⟩
  have hroom := h.room
  have hpid := h.pid_le
  have hpage := h.page.2.1
  rw [loggerEntryMaxPayload_eq] at hroom
  rw [pidMax_eq] at hpid
  rw [bufferSize_eq] at hd
  rw [setWord_mem_self]
  simp only
  rw [BitVec.toNat_sub, h.word, hv, fields, fields]
  omega

end Packed

/-! ## What holds at each point -/

/-- Its word was taken away. -/
def Gone (s : State) (a : Nat) : Prop := 0 < s.procid ∧ (s.mem a).pibr = 0

/-- Null, allocated, or without a word. -/
def Kept (s : State) (a : Nat) : Prop := a = 0 ∨ Page a ∧ (a ∈ s.live ∨ Gone s a)

/-- Allocated, and not the current buffer. -/
def Mine (s : State) (a : Nat) : Prop := Page a ∧ a ∈ s.live ∧ a ≠ s.procPibr

/-- Of this process, with nothing behind the prefix. -/
def Blank (e : Process) (s : State) (a : Nat) : Prop := s.procid = e.pid ∧ pibrIdx (s.mem a).pibr = s.prefixLen

/-- As long as `procid` is not the pid of the process, no buffer of the process is current. -/
def Behind (e : Process) (s : State) (curr : Nat) : Prop := s.procid ≠ e.pid → s.procPibr = 0 ∨ s.procPibr = curr

/-- What the thread is to the buffers. -/
def SoloPc.role : SoloPc → Role
  | .pc x => x.role
  | .reinit _ _ _ | .prefixed _ _ _ _ | .fill _ _ _ => .outside

/-- The prefix may be of the buffer that the thread puts in the place of this one. -/
def SoloPc.Replaces (s : State) (a : Nat) : SoloPc → Prop
  | .prefixed _ curr _ old => curr = a ∧ s.procid = old
  | .fill _ curr _ | .pc (.install _ curr _) => curr = a
  | _ => False

/-- What the thread has read, allocated or reserved is as it takes it to be. -/
def SoloPc.At (e : Process) (s : State) : SoloPc → Prop
  | .pc (.add _ p) => p = 0 ∨ Gone s p ∨ ∃ pid idx, Packed s p 0 0 pid idx
  | .pc (.copy _ ptr _) | .pc (.release ptr) => ∃ pid idx, Packed s ptr 1 0 pid idx
  | .pc (.rollback m ptr) => ∃ pid idx, Packed s ptr 1 m.text.length pid idx
  | .pc (.check _ curr) | .pc (.fallback _ curr) => Kept s curr
  | .pc (.alloc _ curr) => Kept s curr ∧ Behind e s curr
  | .reinit _ curr new => Kept s curr ∧ Mine s new ∧ Behind e s curr
  | .prefixed _ curr new old => Kept s curr ∧ Mine s new ∧ Behind e s curr ∧ old ≠ e.pid ∧ 0 < s.prefixLen
  | .fill _ curr new => Kept s curr ∧ Mine s new ∧ s.procid = e.pid
  | .pc (.install _ curr new) =>
    Kept s curr ∧ Mine s new ∧ s.procid = e.pid ∧ Packed s new 0 0 e.pid s.prefixLen
  | .pc (.discard _ new) => Mine s new
  | .pc (.readPid _ ptr) => Mine s ptr ∨ Page ptr ∧ (Gone s ptr ∨ Blank e s ptr)
  | .pc (.sample _ ptr _) => Mine s ptr ∨ Page ptr ∧ Blank e s ptr
  | .pc (.cas _ ptr _ _) | .pc (.close _ ptr _) | .pc (.write _ ptr) | .pc (.free _ ptr) => Mine s ptr
  | .pc .idle | .pc (.load _) | .pc .loadFlush => True

/-- The current buffer is allocated, and its word is gone, or that of a buffer of `procid` behind the prefix. -/
structure Current (x : SoloPc) (s : State) : Prop where
  page : Page s.procPibr
  live : s.procPibr ∈ s.live
  word : (s.mem s.procPibr).pibr = 0 ∨
    ∃ pid idx, Packed s s.procPibr (x.role.holders s.procPibr) (x.role.doomed s.procPibr) pid idx ∧
      (x.Replaces s s.procPibr ∨ pid = s.procid ∧ s.prefixLen ≤ idx ∧
        s.prefixLen + x.role.holders s.procPibr ≤ idx + x.role.doomed s.procPibr)

/-- The variables of the process. -/
structure VarsOk (s : State) : Prop extends PrefixOk s where
  pid_le : s.procid ≤ pidMax
  pos : 0 < s.procid → 0 < s.prefixLen
  used : s.procPibr ≠ 0 → 0 < s.procid

theorem VarsOk.of_same {s s' : State} (h : VarsOk s) (hbuf : s'.prefixBuf = s.prefixBuf)
    (hlen : s'.prefixLen = s.prefixLen) (hp : s'.procPibr = s.procPibr) (hpid : s'.procid = s.procid) : VarsOk s' where
  len := by rw [hbuf, hlen]; exact h.len
  short := by rw [hlen]; exact h.short
  pid_le := by rw [hpid]; exact h.pid_le
  pos := by rw [hpid, hlen]; exact h.pos
  used := by rw [hp, hpid]; exact h.used

/-- What holds of a process with one thread. -/
structure Solo.Sound (c : Solo) : Prop where
  fits : c.process.Fits
  vars : VarsOk c.state
  current : c.state.procPibr = 0 ∨ Current c.pc c.state
  here : c.pc.At c.process c.state

/-! ## The handler -/

/-- What a handler that returns leaves: a new buffer is current, or none; the old one is as it was, or was flushed if
nobody held it and there were records in it. -/
structure Handled (e : Process) (s s' : State) : Prop where
  vars : VarsOk s'
  same : s.procid = e.pid → s'.procid = e.pid ∧ s'.prefixLen = s.prefixLen
  used : 0 < s.procid → 0 < s'.procid
  named : 0 < s.prefixLen → 0 < s'.prefixLen
  fresh : s'.procPibr ≠ 0 → s'.procPibr ∉ s.live ∧ s'.procid = e.pid ∧ Packed s' s'.procPibr 0 0 e.pid s'.prefixLen
  live : ∀ b, b ≠ s.procPibr → b ∈ s.live → b ∈ s'.live
  word : ∀ b, b ≠ s.procPibr → b ≠ s'.procPibr → (s'.mem b).pibr = (s.mem b).pibr
  old : s.procPibr ≠ 0 → (s.procPibr ∈ s'.live ∧ (s'.mem s.procPibr).pibr = (s.mem s.procPibr).pibr) ∨
    (s'.mem s.procPibr).pibr = 0 ∧ ∃ pid idx, Packed s s.procPibr 0 0 pid idx ∧ idx ≠ s'.prefixLen

section Handled

variable {e : Process} {s s' : State} {x : SoloPc} {a : Nat}

/-- The new buffer. -/
theorem Handled.current (h : Handled e s s') (x : SoloPc) (hx : x.role.holders s'.procPibr = 0)
    (hd : x.role.doomed s'.procPibr = 0) : s'.procPibr = 0 ∨ Current x s' := by
  by_cases hp : s'.procPibr = 0
  · exact Or.inl hp
  · obtain ⟨-, hpid, hpacked⟩ := h.fresh hp
    refine Or.inr ⟨hpacked.page, hpacked.live, Or.inr ⟨e.pid, s'.prefixLen, ?_, Or.inr ⟨hpid.symm, le_rfl, ?_⟩⟩⟩
    · rw [hx, hd]
      exact hpacked
    · omega

theorem Handled.kept (h : Handled e s s') (ha : Kept s a) : Kept s' a := by
  rcases ha with h0 | ⟨hpage, ha⟩
  · exact Or.inl h0
  · have h0 : a ≠ 0 := by have := hpage.1; omega
    refine Or.inr ⟨hpage, ?_⟩
    by_cases hcur : a = s.procPibr
    · subst hcur
      rcases h.old h0 with ⟨hlive, -⟩ | ⟨hzero, pid, idx, hfree, -⟩
      · exact Or.inl hlive
      · exact Or.inr ⟨h.used hfree.used, hzero⟩
    · rcases ha with hlive | ⟨hused, hzero⟩
      · exact Or.inl (h.live a hcur hlive)
      · by_cases hnew : a = s'.procPibr
        · exact Or.inl (hnew ▸ (h.fresh (hnew ▸ h0)).2.2.live)
        · exact Or.inr ⟨h.used hused, (h.word a hcur hnew).trans hzero⟩

/-- A block that was allocated is not the new buffer. -/
theorem Handled.ne_new (h : Handled e s s') (ha : a ∈ s.live) (h0 : a ≠ 0) : a ≠ s'.procPibr := by
  rintro rfl
  exact (h.fresh h0).1 ha

theorem Handled.mine (h : Handled e s s') (ha : Mine s a) : Mine s' a :=
  ⟨ha.1, h.live a ha.2.2 ha.2.1, h.ne_new ha.2.1 (by have := ha.1.1; omega)⟩

theorem Handled.behind (h : Handled e s s') (curr : Nat) : Behind e s' curr := by
  intro hpid
  left
  by_contra hp
  exact hpid (h.fresh hp).2.1

/-- A block that is not current keeps its word. -/
theorem Handled.packed {r d pid idx : Nat} (h : Handled e s s') (ha : Packed s a r d pid idx) (hcur : a ≠ s.procPibr) :
    Packed s' a r d pid idx :=
  ha.frame (h.live a hcur ha.live) (h.word a hcur (h.ne_new ha.live ha.ne_zero)) (h.used ha.used)

/-- A buffer that the thread holds is not flushed. -/
theorem Handled.held {d pid idx : Nat} (h : Handled e s s') (ha : Packed s a 1 d pid idx) : Packed s' a 1 d pid idx := by
  by_cases hcur : a = s.procPibr
  · subst hcur
    rcases h.old ha.ne_zero with ⟨hlive, hword⟩ | ⟨-, pid', idx', hfree, -⟩
    · exact ha.frame hlive hword (h.used ha.used)
    · exact absurd (ha.holders_eq hfree (by omega) (by omega)) (by omega)
  · exact h.packed ha hcur

theorem Handled.blank (h : Handled e s s') (ha : Blank e s a) (h0 : a ≠ 0) : Blank e s' a := by
  obtain ⟨hpid, hidx⟩ := ha
  obtain ⟨hpid', hlen⟩ := h.same hpid
  refine ⟨hpid', ?_⟩
  rw [hlen, ← hidx]
  by_cases hcur : a = s.procPibr
  · subst hcur
    rcases h.old h0 with ⟨-, hword⟩ | ⟨-, pid', idx', hfree, hne⟩
    · rw [hword]
    · have hfields := (hfree.word_fields (by omega) (by omega)).2.2
      exact absurd (hfields.symm.trans hidx) (by rw [← hlen]; exact hne)
  · by_cases hnew : a = s'.procPibr
    · have hpacked := (h.fresh (hnew ▸ h0)).2.2
      rw [← hnew] at hpacked
      rw [(hpacked.word_fields (by omega) (by omega)).2.2, Nat.add_zero, hlen, hidx]
    · rw [h.word a hcur hnew]

/-- A word that was taken away stays away, unless the block is the new buffer. -/
theorem Handled.gone (h : Handled e s s') (ha : Gone s a) (h0 : a ≠ 0) :
    Gone s' a ∨ s'.procid = e.pid ∧ Packed s' a 0 0 e.pid s'.prefixLen := by
  by_cases hcur : a = s.procPibr
  · subst hcur
    left
    rcases h.old h0 with ⟨-, hword⟩ | ⟨hzero, -⟩
    · exact ⟨h.used ha.1, hword.trans ha.2⟩
    · exact ⟨h.used ha.1, hzero⟩
  · by_cases hnew : a = s'.procPibr
    · subst hnew
      exact Or.inr (h.fresh h0).2
    · exact Or.inl ⟨h.used ha.1, (h.word a hcur hnew).trans ha.2⟩

/-- **A handler that returns leaves the thread what it takes to be so.** -/
theorem Handled.at (h : Handled e s s') (hx : x.At e s) : x.At e s' := by
  cases x with
  | reinit k curr new =>
    obtain ⟨hk, hm, -⟩ := hx
    exact ⟨h.kept hk, h.mine hm, h.behind curr⟩
  | prefixed k curr new old =>
    obtain ⟨hk, hm, -, hold, hlen⟩ := hx
    exact ⟨h.kept hk, h.mine hm, h.behind curr, hold, h.named hlen⟩
  | fill k curr new =>
    obtain ⟨hk, hm, hpid⟩ := hx
    exact ⟨h.kept hk, h.mine hm, (h.same hpid).1⟩
  | pc x =>
    cases x with
    | idle | load _ | loadFlush => trivial
    | add m p =>
      by_cases h0 : p = 0
      · exact Or.inl h0
      · rcases hx.resolve_left h0 with hgone | ⟨pid, idx, hpacked⟩
        · rcases h.gone hgone h0 with hgone' | ⟨-, hnew⟩
          · exact Or.inr (Or.inl hgone')
          · exact Or.inr (Or.inr ⟨_, _, hnew⟩)
        · by_cases hcur : p = s.procPibr
          · subst hcur
            rcases h.old h0 with ⟨hlive, hword⟩ | ⟨hzero, -⟩
            · exact Or.inr (Or.inr ⟨pid, idx, hpacked.frame hlive hword (h.used hpacked.used)⟩)
            · exact Or.inr (Or.inl ⟨h.used hpacked.used, hzero⟩)
          · exact Or.inr (Or.inr ⟨pid, idx, h.packed hpacked hcur⟩)
    | copy _ ptr _ | release ptr | rollback _ ptr =>
      obtain ⟨pid, idx, hpacked⟩ := hx
      exact ⟨pid, idx, h.held hpacked⟩
    | check k curr | fallback k curr => exact h.kept hx
    | alloc k curr => exact ⟨h.kept hx.1, h.behind curr⟩
    | install k curr new =>
      obtain ⟨hk, hm, hpid, hpacked⟩ := hx
      obtain ⟨hpid', hlen⟩ := h.same hpid
      refine ⟨h.kept hk, h.mine hm, hpid', ?_⟩
      rw [hlen]
      exact h.packed hpacked hm.2.2
    | discard k new => exact h.mine hx
    | readPid k ptr =>
      rcases hx with hm | ⟨hpage, hgone | hblank⟩
      · exact Or.inl (h.mine hm)
      · have h0 : ptr ≠ 0 := by have := hpage.1; omega
        rcases h.gone hgone h0 with hgone' | ⟨hpid, hnew⟩
        · exact Or.inr ⟨hpage, Or.inl hgone'⟩
        · exact Or.inr ⟨hpage, Or.inr ⟨hpid, by rw [(hnew.word_fields (by omega) (by omega)).2.2]; rfl⟩⟩
      · exact Or.inr ⟨hpage, Or.inr (h.blank hblank (by have := hpage.1; omega))⟩
    | sample k ptr pid =>
      rcases hx with hm | ⟨hpage, hblank⟩
      · exact Or.inl (h.mine hm)
      · exact Or.inr ⟨hpage, h.blank hblank (by have := hpage.1; omega)⟩
    | cas _ ptr _ _ | close _ ptr _ | write _ ptr | free _ ptr => exact h.mine hx

end Handled

section Handler

variable {A : Allocator} {e : Process} {s : State}

/-- Without an answer of `memalign` no buffer is current. -/
theorem unserved_handled (hv : VarsOk s) (hcur : s.procPibr = 0 ∨ s.procPibr ∈ s.live) :
    Handled e s { s with allocs := s.allocs + 1, procPibr := 0 } where
  vars := ⟨⟨hv.len, hv.short⟩, hv.pid_le, hv.pos, fun h => absurd rfl h⟩
  same := fun hpid => ⟨hpid, rfl⟩
  used := id
  named := id
  fresh := fun h => absurd rfl h
  live := fun _ _ hb => hb
  word := fun _ _ _ => rfl
  old := fun h0 => Or.inl ⟨hcur.resolve_left h0, rfl⟩

/-- With one the new block is. -/
theorem Fresh.handled {s₁ : State} {a : Nat} (hf : Fresh e s a s₁) (he : e.Fits) (hv : VarsOk s)
    (hcur : s.procPibr = 0 ∨ s.procPibr ∈ s.live) : Handled e s { s₁ with procPibr := a } := by
  have hshort : s₁.prefixLen < maxPrefixLen := by
    rw [hf.prefixLen]
    exact length_freshPrefix_lt he hv.toPrefixOk
  have hpos : 0 < s₁.prefixLen := by
    rw [hf.prefixLen]
    refine freshPrefix_pos fun hpid => ?_
    rw [hv.len]
    exact hv.pos (hpid ▸ e.pos)
  have hother : ∀ b ∈ s.live, b ≠ a := by
    rintro b hb rfl
    exact hf.fresh hb
  exact {
    vars := ⟨⟨by rw [hf.prefixBuf, hf.prefixLen], hshort⟩, by rw [hf.procid]; exact he.pid, fun _ => hpos,
      fun _ => by rw [hf.procid]; exact e.pos⟩
    same := fun hpid => ⟨hf.procid, by rw [hf.prefixLen, freshPrefix, if_pos hpid, hv.len]⟩
    used := fun _ => by rw [hf.procid]; exact e.pos
    named := fun _ => hpos
    fresh := fun _ => ⟨hf.fresh, hf.procid, .of_pack hf.page (by rw [hf.live]; exact List.mem_cons_self) he.pid hpos hshort
      hf.word (by rw [hf.procid]; exact e.pos)⟩
    live := fun b _ hb => by rw [hf.live]; exact List.mem_cons_of_mem _ hb
    word := fun b _ hb => by rw [hf.other b hb]
    old := fun h0 => by
      have hlive := hcur.resolve_left h0
      exact Or.inl ⟨by rw [hf.live]; exact List.mem_cons_of_mem _ hlive, by rw [hf.other _ (hother _ hlive)]⟩ }

/-- The old buffer is flushed. -/
theorem Handled.flushed {s₁ : State} {pid idx : Nat} (h : Handled e s s₁) (hp : Packed s s.procPibr 0 0 pid idx)
    (hidx : s₁.prefixLen ≠ idx) : Handled e s (flushed s.procPibr idx s₁) := by
  have hnew : s₁.procPibr ≠ 0 → s₁.procPibr ≠ s.procPibr := fun h0 heq => (h.fresh h0).1 (heq ▸ hp.live)
  exact {
    vars := h.vars.of_same (by simp) (by simp) (by simp) (by simp)
    same := by simpa using h.same
    used := by simpa using h.used
    named := by simpa using h.named
    fresh := fun h0 => by
      rw [flushed_procPibr] at h0 ⊢
      obtain ⟨hfresh, hpid, hpacked⟩ := h.fresh h0
      rw [flushed_procid, flushed_prefixLen]
      refine ⟨hfresh, hpid, hpacked.frame ((List.mem_erase_of_ne (hnew h0)).mpr hpacked.live) ?_ ?_⟩
      · rw [flushed_mem_of_ne _ (hnew h0)]
      · rw [flushed_procid]
        exact hpacked.used
    live := fun b hb hlive => (List.mem_erase_of_ne hb).mpr (h.live b hb hlive)
    word := fun b hb hb' => by
      rw [flushed_procPibr] at hb'
      rw [flushed_mem_of_ne _ hb, h.word b hb hb']
    old := fun _ => by
      rw [flushed_prefixLen]
      exact Or.inr ⟨by simp [Bblog.flushed], pid, idx, hp, fun heq => hidx heq.symm⟩ }

/-- `flush_buffer` on a buffer that a thread holds: its wait ends only if there is nothing to wait for. -/
theorem flushBuffer_held {s₁ : State} {a d pid idx : Nat} (hp : Packed s a 1 d pid idx) (hd : d ≤ bufferSize)
    (hword : (s₁.mem a).pibr = (s.mem a).pibr) (hbehind : s.prefixLen < idx + d) (hpid : pid = s.procid) :
    (s₁.procid ≠ s.procid → flushBuffer a s₁ = .ok s₁) ∧
      (s₁.procid = s.procid → s₁.prefixLen = s.prefixLen → flushBuffer a s₁ = .error .spins) := by
  obtain ⟨-, hpidw, hidx⟩ := hp.word_fields (by omega) hd
  have hne : (s.mem a).pibr ≠ packBuffer a pid (idx + d) 0 := fun heq =>
    absurd ((hp.word_iff (by omega) hd).mp heq) (by omega)
  unfold flushBuffer
  rw [if_neg hp.ne_zero]
  simp only [hword, hpidw, hidx]
  constructor
  · intro hproc
    rw [if_pos (by rw [hpid]; exact hproc)]
  · intro hproc hlen
    rw [if_neg (by rw [hpid]; exact not_not.mpr hproc), if_neg (by omega), if_pos hne]

theorem SoloPc.holding_iff {x : SoloPc} {a : Nat} : x.Holding a ↔ x.role.holders a ≠ 0 := by
  cases x <;> simp [SoloPc.Holding, Pc.Holding, SoloPc.role]

/-- A thread holds a buffer once or not at all, and gives back only bytes that it holds. -/
theorem SoloPc.role_cases (x : SoloPc) (s : State) (a : Nat) : (x.role.holders a = 0 ∧ x.role.doomed a = 0) ∨
    x.role.holders a = 1 ∧ x.role.doomed a ≤ bufferSize ∧ ¬ x.Replaces s a := by
  cases x with
  | pc x =>
    cases x with
    | copy m ptr idx | release ptr =>
      simp only [SoloPc.role, Pc.role, Role.holders, Role.doomed, SoloPc.Replaces]
      split_ifs <;> simp
    | rollback m ptr =>
      have hlen := length_text_lt m
      simp only [SoloPc.role, Pc.role, Role.holders, Role.doomed, SoloPc.Replaces]
      split_ifs
      · exact Or.inr ⟨rfl, Nat.le_of_lt hlen, not_false⟩
      · exact Or.inl ⟨rfl, rfl⟩
    | _ => exact Or.inl ⟨rfl, rfl⟩
  | _ => exact Or.inl ⟨rfl, rfl⟩

/-- The interrupted thread holds the current buffer, and the handler flushes that: `procid` is its pid also after the
swap. -/
def Solo.Waits (A : Allocator) (c : Solo) : Prop :=
  c.pc.Holding c.state.procPibr ∧
    (c.state.procid = c.process.pid ∨ A.memalign c.state.allocs c.state.live = none)

instance (A : Allocator) (c : Solo) : Decidable (c.Waits A) := inferInstanceAs (Decidable (_ ∧ _))

/-- `swap_buffers` in the handler. -/
theorem Solo.Sound.swap {c : Solo} (h : c.Sound) : ∃ s₁, Handled c.process c.state s₁ ∧
    (∀ b ∈ c.state.live, (s₁.mem b).pibr = (c.state.mem b).pibr) ∧
    (A.memalign c.state.allocs c.state.live ≠ none → s₁.procid = c.process.pid) ∧
    (A.memalign c.state.allocs c.state.live = none →
      s₁.procid = c.state.procid ∧ s₁.prefixLen = c.state.prefixLen) ∧
    ∀ sig : Nat, bblogExit A c.process (-((sig : Int) + 1)) c.state =
      if c.state.procPibr ≠ 0 then flushBuffer c.state.procPibr s₁ else .ok s₁ := by
  have hcur : c.state.procPibr = 0 ∨ c.state.procPibr ∈ c.state.live := h.current.imp_right Current.live
  have hexit : ∀ s₁, swapBuffers A c.process c.state.procPibr c.state = (true, s₁) → ∀ sig : Nat,
      bblogExit A c.process (-((sig : Int) + 1)) c.state =
        if c.state.procPibr ≠ 0 then flushBuffer c.state.procPibr s₁ else .ok s₁ := by
    intro s₁ hswap sig
    have hneg : -((sig : Int) + 1) < 0 := by omega
    simp only [bblogExit, hneg, ↓reduceIte, swapAndFlushBuffer, hswap, true_and]
    rcases h.current with h0 | hc
    · simp [h0]
    · rw [pibrPtr_page hc.page]
  cases hA : A.memalign c.state.allocs c.state.live with
  | none =>
    exact ⟨_, unserved_handled h.vars hcur, fun _ _ => rfl, fun hn => absurd rfl hn, fun _ => ⟨rfl, rfl⟩,
      hexit _ (swapBuffers_unserved hA)⟩
  | some x =>
    obtain ⟨a, s₁, hswap, hf⟩ := swapBuffers_served (e := c.process) h.fits h.vars.toPrefixOk (by rw [hA]; rfl)
    refine ⟨_, hf.handled h.fits h.vars hcur, fun b hb => ?_, fun _ => hf.procid, fun hn => absurd hn (by simp),
      hexit _ hswap⟩
    have hne : b ≠ a := by
      rintro rfl
      exact hf.fresh hb
    rw [hf.other b hne]

/-- A buffer that the thread holds has it in its word. -/
theorem SoloPc.At.held {x : SoloPc} {a : Nat} (h : x.At e s) (hx : x.role.holders a = 1) :
    ∃ pid idx, Packed s a 1 (x.role.doomed a) pid idx := by
  cases x with
  | pc x =>
    cases x with
    | copy m ptr idx | release ptr | rollback m ptr =>
      simp only [SoloPc.role, Pc.role, Role.holders, ite_eq_left_iff, zero_ne_one, imp_false, not_not] at hx
      subst hx
      simp only [SoloPc.role, Pc.role, Role.doomed, ↓reduceIte]
      exact h
    | _ => cases hx
  | _ => cases hx

/-- The handler on a buffer that the thread does not hold. -/
theorem Current.flush {c : Solo} (hc : Current c.pc c.state) (hr : c.pc.role.holders c.state.procPibr = 0)
    (hd : c.pc.role.doomed c.state.procPibr = 0) {s₁ : State} (hs₁ : Handled c.process c.state s₁)
    (hpos : 0 < s₁.procid) (hword : (s₁.mem c.state.procPibr).pibr = (c.state.mem c.state.procPibr).pibr) :
    ∃ s', flushBuffer c.state.procPibr s₁ = .ok s' ∧ Handled c.process c.state s' := by
  rcases hc.word with hzero | ⟨pid, idx, hp, -⟩
  · exact ⟨s₁, flushBuffer_cleared hpos (hword.trans hzero), hs₁⟩
  · rw [hr, hd] at hp
    have hroom := hp.room
    rw [loggerEntryMaxPayload_eq] at hroom
    have hflush := flushBuffer_eq (s := s₁) hp.page hp.pid_le (by omega) hp.pos
      (hword.trans ((hp.word_iff (by omega) (by omega)).mpr rfl))
    refine ⟨_, hflush, ?_⟩
    split_ifs with hgo
    · exact hs₁.flushed hp hgo.2
    · exact hs₁

/-- **The handler returns exactly if it does not wait for the interrupted thread.** -/
theorem Solo.Sound.handler {c : Solo} (h : c.Sound) (sig : Nat) :
    (c.Waits A → bblogExit A c.process (-((sig : Int) + 1)) c.state = .error .spins) ∧
      (¬ c.Waits A →
        ∃ s', bblogExit A c.process (-((sig : Int) + 1)) c.state = .ok s' ∧ Handled c.process c.state s') := by
  obtain ⟨s₁, hs₁, hmem, hserved, hunserved, hexit⟩ := h.swap (A := A)
  rw [hexit]
  rcases h.current with h0 | hc
  · -- no buffer to flush
    rw [if_neg (not_not.mpr h0)]
    refine ⟨fun hw => ?_, fun _ => ⟨s₁, rfl, hs₁⟩⟩
    rcases c.pc.role_cases c.state c.state.procPibr with ⟨hr, -⟩ | ⟨hr, -⟩
    · exact absurd hr (SoloPc.holding_iff.mp hw.1)
    · obtain ⟨pid, idx, hp⟩ := h.here.held hr
      exact absurd h0 hp.ne_zero
  · have hp0 : c.state.procPibr ≠ 0 := by have := hc.page.1; omega
    rw [if_pos hp0]
    have hword := hmem _ hc.live
    rcases c.pc.role_cases c.state c.state.procPibr with ⟨hr, hd⟩ | ⟨hr, hd, hrep⟩
    · refine ⟨fun hw => absurd hr (SoloPc.holding_iff.mp hw.1), fun _ => hc.flush hr hd hs₁ ?_ hword⟩
      by_cases hA : A.memalign c.state.allocs c.state.live = none
      · rw [(hunserved hA).1]
        exact h.vars.used hp0
      · rw [hserved hA]
        exact c.process.pos
    · -- the thread holds it
      obtain ⟨pid', idx', hp'⟩ := h.here.held hr
      obtain ⟨pid, idx, hp, hbehind⟩ := hc.word.resolve_left hp'.word_ne
      obtain ⟨hpid, -, hlen⟩ := hbehind.resolve_left hrep
      rw [hr] at hp hlen
      obtain ⟨hgone, hstays⟩ := flushBuffer_held hp hd hword (by omega) hpid
      constructor
      · rintro ⟨-, hown | hA⟩
        · obtain ⟨hpid', hlen'⟩ := hs₁.same hown
          exact hstays (hpid'.trans hown.symm) hlen'
        · exact hstays (hunserved hA).1 (hunserved hA).2
      · intro hw
        obtain ⟨hother, hA⟩ := not_or.mp fun hor => hw ⟨SoloPc.holding_iff.mpr (by omega), hor⟩
        exact ⟨s₁, hgone (by rw [hserved hA]; exact fun heq => hother heq.symm), hs₁⟩

end Handler

end Cosmost.Bblog
