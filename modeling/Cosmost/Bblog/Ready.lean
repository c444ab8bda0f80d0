import Cosmost.Bblog.Buffer

/-!
# What each function of `bblog.c` does to a current buffer

`Ready s msgs`: the current buffer of `s` holds the prefix and the records `msgs`, no thread holds it, and its word says
so. One lemma for each function gives the state after it:

- `allocBuffer_fresh`: a new buffer holds the prefix of the process;
- `swapAndFlush_swapped`: the new buffer is current; the old one went to the log if it holds records of this process,
  with its last character replaced (`closedText_eq`), and is kept otherwise;
- `blogTurn_stored`, `blogTurn_swapped`: a turn of the loop stores the record, or swaps.
-/

namespace Cosmost.Bblog

open Cosmost.Lib

/-! ## Memory -/

section Memory

variable (s : State) (p : Nat) (w w' : BitVec 64) (b : Bytes)

@[simp] theorem setWord_mem_self : (s.setWord p w).mem p = ⟨w, (s.mem p).buf⟩ := by simp [State.setWord]

@[simp] theorem setBuf_mem_self : (s.setBuf p b).mem p = ⟨(s.mem p).pibr, b⟩ := by simp [State.setBuf]

@[simp] theorem setWord_setWord : (s.setWord p w).setWord p w' = s.setWord p w' := by
  simp [State.setWord]

@[simp] theorem setWord_self : s.setWord p (s.mem p).pibr = s := by
  simp [State.setWord]

theorem setWord_mem_of_ne {q : Nat} (h : q ≠ p) : (s.setWord p w).mem q = s.mem q := by
  simp [State.setWord, h]

theorem setBuf_mem_of_ne {q : Nat} (h : q ≠ p) : (s.setBuf p b).mem q = s.mem q := by
  simp [State.setBuf, h]

end Memory

theorem fetchAdd_page {p : Nat} (hp : Page p) (v : BitVec 64) (s : State) :
    fetchAdd p v s = .ok ((s.mem p).pibr, s.setWord p ((s.mem p).pibr + v)) :=
  if_neg (by have := hp.1; omega)

theorem fetchSub_page {p : Nat} (hp : Page p) (v : BitVec 64) (s : State) :
    fetchSub p v s = .ok (s.setWord p ((s.mem p).pibr - v)) :=
  if_neg (by have := hp.1; omega)

/-! ## A new buffer -/

/-- The array `prefix` holds what `prefix_len` says. -/
structure PrefixOk (s : State) : Prop where
  len : s.prefixBuf.length = s.prefixLen
  short : s.prefixLen < maxPrefixLen

/-- The process has a valid pid, and a name with which the prefix fits. -/
structure Process.Fits (e : Process) : Prop where
  pid : e.pid ≤ pidMax
  short : (prefixText e).length < maxPrefixLen

instance (e : Process) : Decidable e.Fits :=
  decidable_of_iff (_ ∧ _) ⟨fun h => ⟨h.1, h.2⟩, fun h => ⟨h.pid, h.short⟩⟩

/-- The prefix of a buffer that is initialised now. -/
def freshPrefix (e : Process) (s : State) : List Char := if s.procid = e.pid then s.prefixBuf else prefixText e

theorem length_freshPrefix_lt {e : Process} {s : State} (he : e.Fits) (hs : PrefixOk s) :
    (freshPrefix e s).length < maxPrefixLen := by
  unfold freshPrefix
  split_ifs
  · rw [hs.len]; exact hs.short
  · exact he.short

theorem reinitProcid_eq {e : Process} {s : State} (he : e.Fits) (hs : PrefixOk s) :
    reinitProcid e s = (true, { s with
      procid := e.pid, prefixBuf := freshPrefix e s, prefixLen := (freshPrefix e s).length }) := by
  unfold reinitProcid freshPrefix
  by_cases h : s.procid = e.pid
  · simp only [h, ↓reduceIte, hs.len, Prod.mk.injEq, true_and]
    rw [← h]
  · simp only [h, ↓reduceIte, fits_eq he.short, ge_iff_le, not_le.mpr he.short]

/-- What `alloc_buffer` leaves when `memalign` answers: a buffer with the prefix, empty and free. -/
structure Fresh (e : Process) (s : State) (a : Nat) (s' : State) : Prop where
  page : Page a
  fresh : a ∉ s.live
  live : s'.live = a :: s.live
  procid : s'.procid = e.pid
  prefixBuf : s'.prefixBuf = freshPrefix e s
  prefixLen : s'.prefixLen = (freshPrefix e s).length
  word : (s'.mem a).pibr = packBuffer a e.pid s'.prefixLen 0
  holds : Holds (s'.mem a).buf 0 s'.prefixBuf
  other : ∀ p, p ≠ a → s'.mem p = s.mem p
  procPibr : s'.procPibr = s.procPibr
  cntr : s'.cntr = s.cntr
  trace : s'.trace = s.trace

theorem allocBuffer_fresh {A : Allocator} {e : Process} {s : State} (he : e.Fits) (hs : PrefixOk s)
    (hA : (A.memalign s.allocs s.live).isSome) : ∃ a s', allocBuffer A e s = (a, s') ∧ Fresh e s a s' := by
  obtain ⟨⟨a, p⟩, ha⟩ := Option.isSome_iff_exists.mp hA
  have hpage := A.page ha
  refine ⟨a, _, by simp only [allocBuffer, ha]; rw [if_neg (by simpa using hpage.2.2)], ?_⟩
  have hr := reinitProcid_eq (s := ⟨s.cntr, s.procid, s.prefixBuf, s.prefixLen, s.procPibr, Function.update s.mem a p,
    a :: s.live, s.allocs + 1, s.trace⟩) he ⟨hs.len, hs.short⟩
  simp only [initBuffer, hr, freshPrefix]
  exact {
    page := hpage
    fresh := A.fresh ha
    live := rfl
    procid := rfl
    prefixBuf := rfl
    prefixLen := rfl
    word := by simp [State.setWord, State.setBuf]
    holds := by
      simp only [setWord_mem_self, setBuf_mem_self]
      exact (holds_blit _ 0 _).left
    other := fun q hq => by simp [setWord_mem_of_ne _ _ _ hq, setBuf_mem_of_ne _ _ _ hq, hq]
    procPibr := rfl
    cntr := rfl
    trace := rfl }

/-! ## Flushing -/

/-- The text of a buffer filled up to `idx`, closed. -/
def closedText (buf : Bytes) (idx : Nat) : List Char :=
  cstr pibrBufSize (strcpy buf (idx - 1) "\x7d\x7d".toList)

/-- Closing replaces the last character. -/
theorem closedText_eq {buf : Bytes} {t : List Char} (ht : NulFree t) (h : Holds buf 0 t) (hpos : 0 < t.length)
    (hroom : t.length + 1 < pibrBufSize) : closedText buf t.length = t.dropLast ++ "\x7d\x7d".toList := by
  have hsplit : t = t.dropLast ++ [t.getLast (List.ne_nil_of_length_pos hpos)] := (List.dropLast_append_getLast _).symm
  have hd : t.dropLast.length = t.length - 1 := List.length_dropLast
  have hdrop : Holds buf 0 t.dropLast := by
    rw [hsplit] at h
    exact h.left
  have hends : NulFree "\x7d\x7d".toList := by unfold NulFree nul; decide
  refine cstr_of_holds (NulFree.append (fun hn => ht (List.dropLast_subset _ hn)) hends) ?_ ?_
  · rw [List.append_assoc]
    refine (hdrop.blit_of_le _ (by omega)).append ?_
    rw [hd, Nat.zero_add]
    exact holds_blit _ _ _
  · rw [List.length_append, hd]
    have : "\x7d\x7d".toList.length = 2 := rfl
    omega

/-- The state after `flush_buffer` wrote the buffer. -/
@[simps! procid prefixBuf prefixLen procPibr]
def flushed (p idx : Nat) (s : State) : State :=
  (((s.setWord p 0).setBuf p (strcpy (s.mem p).buf (idx - 1) "\x7d\x7d".toList)).emit
    (.written p (closedText (s.mem p).buf idx))).free p

theorem flushed_mem_of_ne (s : State) {p q : Nat} (hq : q ≠ p) (idx : Nat) : (flushed p idx s).mem q = s.mem q := by
  simp [flushed, setBuf_mem_of_ne _ _ _ hq, setWord_mem_of_ne _ _ _ hq]

theorem flushBuffer_eq {s : State} {p pid idx : Nat} (hp : Page p) (hpid : pid ≤ pidMax) (hidx : idx < 2 ^ 16)
    (hpos : 0 < idx) (hw : (s.mem p).pibr = packBuffer p pid idx 0) :
    flushBuffer p s = .ok (if s.procid = pid ∧ s.prefixLen ≠ idx then flushed p idx s else s) := by
  have hfields := packBuffer_toNat hpid (Or.inl hp) hidx (show 0 < 2 ^ 12 by omega)
  rw [← hw] at hfields
  have h1 : pibrPid (s.mem p).pibr = pid := by rw [pibrPid_of hfields hp (by omega)]; omega
  have h2 : pibrIdx (s.mem p).pibr = idx := by rw [pibrIdx_of hfields hp (by omega)]; omega
  have hp0 : p ≠ 0 := by have := hp.1; omega
  unfold flushBuffer
  simp only [hp0, ↓reduceIte, h1, h2]
  by_cases hproc : s.procid = pid
  · by_cases hlen : s.prefixLen = idx
    · simp [hlen]
    · simp only [hproc, hlen, hw, ne_eq, not_true_eq_false, not_false_eq_true, ↓reduceIte, and_self,
        show idx ≠ 0 by omega]
      simp [flushed, closedText]
  · simp [hproc]

/-! ## The current buffer -/

/-- The current buffer holds the prefix and the records `msgs`, and no thread holds it. -/
structure Ready (s : State) (msgs : List (List Char)) : Prop extends PrefixOk s where
  page : Page s.procPibr
  live : s.procPibr ∈ s.live
  pid : s.procid ≤ pidMax
  pos : 0 < s.prefixLen
  word : (s.mem s.procPibr).pibr = packBuffer s.procPibr s.procid (s.prefixLen + msgs.flatten.length) 0
  holds : Holds (s.mem s.procPibr).buf 0 (s.prefixBuf ++ msgs.flatten)
  room : s.prefixLen + msgs.flatten.length < loggerEntryMaxPayload - 32

/-- Counting changes no buffer. -/
theorem Ready.withCntr {s : State} {msgs : List (List Char)} (h : Ready s msgs) (c : Nat) :
    Ready { s with cntr := c } msgs :=
  ⟨⟨h.len, h.short⟩, h.page, h.live, h.pid, h.pos, h.word, h.holds, h.room⟩

theorem length_prefixText (e : Process) : (prefixText e).length = (decimal e.pid).length + e.name.length + 27 := by
  have h1 : "\x7b\"PID\":".toList.length = 7 := rfl
  have h2 : ",\"PROC\":\"".toList.length = 9 := rfl
  have h3 : "\",\"BATCH\":\x7b".toList.length = 11 := rfl
  unfold prefixText
  simp only [List.length_append, h1, h2, h3]
  omega

theorem length_prefixText_pos (e : Process) : 0 < (prefixText e).length := by
  rw [length_prefixText]
  omega

theorem prefixText_nulFree (e : Process) : NulFree (prefixText e) := by
  have h : ∀ s ∈ ["\x7b\"PID\":", ",\"PROC\":\"", "\",\"BATCH\":\x7b"], NulFree s.toList := by
    unfold NulFree nul; decide
  exact (h _ (by simp)).append ((decimal_nulFree _).append ((h _ (by simp)).append (e.nulFree.append (h _ (by simp)))))

/-- What `swap_and_flush_buffer` leaves of a state with a current buffer: a new buffer is current, and the old one went
to the log if it holds records of this process. -/
structure Swapped (e : Process) (s : State) (msgs : List (List Char)) (s' : State) : Prop where
  ready : Ready s' []
  fresh : s'.procPibr ∉ s.live
  procid : s'.procid = e.pid
  prefixBuf : s'.prefixBuf = freshPrefix e s
  cntr : s'.cntr = s.cntr
  logged : s.procid = e.pid → msgs.flatten ≠ [] → s'.live = s'.procPibr :: s.live.erase s.procPibr ∧
    s'.trace = s.trace ++
      [.written s.procPibr (closedText (s.mem s.procPibr).buf (s.prefixLen + msgs.flatten.length))]
  kept : s.procid ≠ e.pid ∨ msgs.flatten = [] → s'.live = s'.procPibr :: s.live ∧ s'.trace = s.trace

/-- The prefix of a new buffer is not empty, if one that was made for the pid is not. -/
theorem freshPrefix_pos {e : Process} {s : State} (hs : s.procid = e.pid → 0 < s.prefixBuf.length) :
    0 < (freshPrefix e s).length := by
  unfold freshPrefix
  split_ifs with hpid
  · exact hs hpid
  · exact length_prefixText_pos e

/-- A new buffer becomes current. -/
theorem Fresh.ready {e : Process} {s s' : State} {a : Nat} (he : e.Fits) (hs : PrefixOk s) (h : Fresh e s a s')
    (hpos : 0 < (freshPrefix e s).length) : Ready { s' with procPibr := a } [] := by
  have hlen := length_freshPrefix_lt he hs
  rw [maxPrefixLen_eq] at hlen
  exact {
    len := by rw [h.prefixBuf, h.prefixLen]
    short := by rw [h.prefixLen, maxPrefixLen_eq]; exact hlen
    page := h.page
    live := by rw [h.live]; exact List.mem_cons_self
    pid := by rw [h.procid]; exact he.pid
    pos := by rw [h.prefixLen]; exact hpos
    word := by rw [h.word, h.procid]; rfl
    holds := by simpa using h.holds
    room := by
      simp only [List.flatten_nil, List.length_nil, h.prefixLen, loggerEntryMaxPayload_eq]
      omega }

/-- The variables are as they were, and the current buffer holds the records `msgs'`. -/
theorem Ready.of_same {s s' : State} {msgs msgs' : List (List Char)} (h : Ready s msgs)
    (hbuf : s'.prefixBuf = s.prefixBuf) (hlen : s'.prefixLen = s.prefixLen) (hp : s'.procPibr = s.procPibr)
    (hpid : s'.procid = s.procid) (hlive : s.procPibr ∈ s'.live)
    (hword : (s'.mem s.procPibr).pibr = packBuffer s.procPibr s.procid (s.prefixLen + msgs'.flatten.length) 0)
    (hholds : Holds (s'.mem s.procPibr).buf 0 (s.prefixBuf ++ msgs'.flatten))
    (hroom : s.prefixLen + msgs'.flatten.length < loggerEntryMaxPayload - 32) : Ready s' msgs' where
  len := by rw [hbuf, hlen]; exact h.len
  short := by rw [hlen]; exact h.short
  page := by rw [hp]; exact h.page
  live := by rw [hp]; exact hlive
  pid := by rw [hpid]; exact h.pid
  pos := by rw [hlen]; exact h.pos
  word := by rw [hp, hpid, hlen]; exact hword
  holds := by rw [hp, hbuf]; exact hholds
  room := by rw [hlen]; exact hroom

/-- Flushing another buffer leaves the current one. -/
theorem Ready.flushed_other {s : State} {msgs : List (List Char)} (h : Ready s msgs) {p : Nat}
    (hp : s.procPibr ≠ p) (idx : Nat) : Ready (flushed p idx s) msgs := by
  have hmem := flushed_mem_of_ne s hp idx
  refine h.of_same (by simp) (by simp) (by simp) (by simp) ?_ ?_ ?_ h.room
  · exact (List.mem_erase_of_ne hp).mpr h.live
  · rw [hmem]
    exact h.word
  · rw [hmem]
    exact h.holds

section Swap

variable {A : Allocator} {e : Process} {s : State} {msgs : List (List Char)} (he : e.Fits) (h : Ready s msgs)
  (hA : (A.memalign s.allocs s.live).isSome)
include he h hA

/-- `swap_buffers` on the current buffer. -/
theorem swapBuffers_current : ∃ a s', swapBuffers A e s.procPibr s = (true, { s' with procPibr := a }) ∧
    Fresh e s a s' := by
  obtain ⟨a, s', heq, hf⟩ := allocBuffer_fresh he h.toPrefixOk hA
  have ha : a ≠ 0 := by have := hf.page.1; omega
  exact ⟨a, s', by simp [swapBuffers, heq, ha, hf.procPibr], hf⟩

/-- **`swap_and_flush_buffer` on the current buffer.** -/
theorem swapAndFlush_swapped : ∃ s', swapAndFlushBuffer A e s.procPibr s = .ok s' ∧ Swapped e s msgs s' := by
  obtain ⟨a, s₁, hswap, hf⟩ := swapBuffers_current he h hA
  have hpos : 0 < (freshPrefix e s).length := freshPrefix_pos fun _ => by rw [h.len]; exact h.pos
  have hready := hf.ready he h.toPrefixOk hpos
  have hne : a ≠ s.procPibr := fun ha => hf.fresh (ha ▸ h.live)
  have hold : s₁.mem s.procPibr = s.mem s.procPibr := hf.other _ hne.symm
  have hroom := h.room
  rw [loggerEntryMaxPayload_eq] at hroom
  have hflush := flushBuffer_eq (s := { s₁ with procPibr := a }) h.page h.pid (by omega) (by have := h.pos; omega)
    ((congrArg Pibr.pibr hold).trans h.word)
  have hp0 : s.procPibr ≠ 0 := by have := h.page.1; omega
  have heq : swapAndFlushBuffer A e s.procPibr s = flushBuffer s.procPibr { s₁ with procPibr := a } := by
    simp [swapAndFlushBuffer, hswap, hp0, pibrPtr_page h.page]
  refine ⟨_, heq.trans hflush, ?_⟩
  by_cases hpid : s.procid = e.pid
  · -- the prefix is that of the old buffer
    have hpre : s₁.prefixLen = s.prefixLen := by rw [hf.prefixLen, freshPrefix, if_pos hpid, h.len]
    by_cases hmsgs : msgs.flatten = []
    · rw [if_neg (by simp [hpre, hmsgs])]
      exact {
        ready := hready
        fresh := hf.fresh
        procid := hf.procid
        prefixBuf := hf.prefixBuf
        cntr := hf.cntr
        logged := fun _ hn => absurd hmsgs hn
        kept := fun _ => ⟨hf.live, hf.trace⟩ }
    · have hlen : 0 < msgs.flatten.length := List.length_pos_of_ne_nil hmsgs
      rw [if_pos ⟨by rw [hf.procid, hpid], by simp only [hpre]; omega⟩]
      exact {
        ready := hready.flushed_other hne _
        fresh := hf.fresh
        procid := hf.procid
        prefixBuf := hf.prefixBuf
        cntr := hf.cntr
        logged := fun _ _ => ⟨by simp [flushed, State.free, State.emit, State.setBuf, State.setWord, hf.live,
          List.erase_cons_tail, hne], by
            simp [flushed, State.free, State.emit, State.setBuf, State.setWord, hf.trace, hold]⟩
        kept := fun hk => absurd hk (by simp [hpid, hmsgs]) }
  · rw [if_neg (by simp [hf.procid, Ne.symm hpid])]
    exact {
      ready := hready
      fresh := hf.fresh
      procid := hf.procid
      prefixBuf := hf.prefixBuf
      cntr := hf.cntr
      logged := fun hn => absurd hn hpid
      kept := fun _ => ⟨hf.live, hf.trace⟩ }

end Swap

/-! ## One turn of the loop -/

/-- What a turn leaves that stores the record `m`. -/
structure Stored (s : State) (msgs : List (List Char)) (m : List Char) (s' : State) : Prop where
  ready : Ready s' (msgs ++ [m])
  procPibr : s'.procPibr = s.procPibr
  procid : s'.procid = s.procid
  prefixBuf : s'.prefixBuf = s.prefixBuf
  live : s'.live = s.live
  cntr : s'.cntr = s.cntr
  trace : s'.trace = s.trace ++ [.stored s.procPibr (s.prefixLen + msgs.flatten.length) m]

section Turn

variable {A : Allocator} {e : Process} {s : State} {msgs : List (List Char)} (h : Ready s msgs) (m : List Char)
include h

/-- The fields of the current word. -/
theorem Ready.word_fields : pibrPtr (s.mem s.procPibr).pibr = s.procPibr ∧
    pibrPid (s.mem s.procPibr).pibr = s.procid ∧
    pibrIdx (s.mem s.procPibr).pibr = s.prefixLen + msgs.flatten.length ∧
    (s.mem s.procPibr).pibr.toNat = fields s.procid (s.prefixLen + msgs.flatten.length) s.procPibr 0 := by
  have hroom := h.room
  rw [loggerEntryMaxPayload_eq] at hroom
  have hfields := packBuffer_toNat h.pid (Or.inl h.page) (show s.prefixLen + msgs.flatten.length < 2 ^ 16 by omega)
    (show 0 < 2 ^ 12 by omega)
  rw [← h.word] at hfields
  refine ⟨pibrPtr_of hfields h.page (by omega), ?_, ?_, hfields⟩
  · rw [pibrPid_of hfields h.page (by omega)]; omega
  · rw [pibrIdx_of hfields h.page (by omega)]; omega

/-- **A record that fits is stored.** -/
theorem blogTurn_stored (hpid : s.procid = e.pid)
    (hfit : s.prefixLen + msgs.flatten.length + m.length < loggerEntryMaxPayload - 32) :
    ∃ s', blogTurn A e m s = .ok (some m.length, s') ∧ Stored s msgs m s' := by
  obtain ⟨hptr, hpidw, hidx, hfields⟩ := h.word_fields
  have hp0 : s.procPibr ≠ 0 := by have := h.page.1; omega
  have hfit' := hfit
  rw [loggerEntryMaxPayload_eq] at hfit'
  refine ⟨_, by
    simp only [blogTurn, fetchAdd_page h.page, bind, Except.bind, hptr, hp0, ↓reduceIte, hpidw, hpid, hidx, hfit,
      and_self, fetchSub_page h.page]
    rfl, ?_⟩
  have hword : ((s.mem s.procPibr).pibr + packBuffer 0 0 m.length 1 - 1).toNat
      = fields s.procid (s.prefixLen + (msgs ++ [m]).flatten.length) s.procPibr 0 := by
    have hincr := incr_toNat (show m.length < 2 ^ 16 by omega)
    have hpage := h.page.2.1
    have hpidmax := h.pid
    rw [pidMax_eq] at hpidmax
    rw [List.flatten_append, List.length_append, List.flatten_singleton, BitVec.toNat_sub, BitVec.toNat_add, hfields,
      hincr, show (1 : BitVec 64).toNat = 1 from rfl, fields, fields]
    omega
  have hflat : s.prefixLen + (msgs ++ [m]).flatten.length < loggerEntryMaxPayload - 32 := by
    rw [List.flatten_append, List.length_append, List.flatten_singleton]
    omega
  have hflat' := hflat
  rw [loggerEntryMaxPayload_eq] at hflat'
  have hpack := packBuffer_toNat h.pid (Or.inl h.page)
    (show s.prefixLen + (msgs ++ [m]).flatten.length < 2 ^ 16 by omega) (show 0 < 2 ^ 12 by omega)
  have hbuf : Holds (blit (s.mem s.procPibr).buf (s.prefixLen + msgs.flatten.length) m) 0
      (s.prefixBuf ++ msgs.flatten ++ m) := by
    have hb := h.holds.blit_of_le m
      (show 0 + (s.prefixBuf ++ msgs.flatten).length ≤ s.prefixLen + msgs.flatten.length by simp [h.len])
    refine hb.append ?_
    rw [List.length_append, h.len, Nat.zero_add]
    exact holds_blit _ _ _
  refine ⟨h.of_same (by simp) (by simp) (by simp) (by simp) (by simpa using h.live) ?_ ?_ hflat, by simp, by simp,
    by simp, by simp, by simp, by simp⟩
  · simpa using BitVec.eq_of_toNat_eq (hword.trans hpack.symm)
  · simpa [List.flatten_append] using hbuf

/-- A turn that does not store takes its reservation back, and swaps. -/
theorem blogTurn_of_swap {s' : State} (hs' : swapAndFlushBuffer A e s.procPibr s = .ok s')
    (hfit : ¬(s.procid = e.pid ∧ s.prefixLen + msgs.flatten.length + m.length < loggerEntryMaxPayload - 32)) :
    blogTurn A e m s = .ok (none, s') := by
  obtain ⟨hptr, hpidw, hidx, -⟩ := h.word_fields
  have hp0 : s.procPibr ≠ 0 := by have := h.page.1; omega
  simp only [blogTurn, fetchAdd_page h.page, bind, Except.bind, hptr, hp0, ↓reduceIte, hpidw, hidx, hfit,
    fetchSub_page h.page, setWord_mem_self, setWord_setWord, BitVec.add_sub_cancel, setWord_self, hs']
  rfl

/-- **Otherwise the buffers are swapped.** -/
theorem blogTurn_swapped (he : e.Fits) (hA : (A.memalign s.allocs s.live).isSome)
    (hfit : ¬(s.procid = e.pid ∧ s.prefixLen + msgs.flatten.length + m.length < loggerEntryMaxPayload - 32)) :
    ∃ s', blogTurn A e m s = .ok (none, s') ∧ Swapped e s msgs s' := by
  obtain ⟨s', hs', hsw⟩ := swapAndFlush_swapped he h hA
  exact ⟨s', blogTurn_of_swap h m hs' hfit, hsw⟩

/-- Without an answer of `memalign` the turn leaves no current buffer. -/
theorem blogTurn_unserved (hA : A.memalign s.allocs s.live = none)
    (hfit : ¬(s.procid = e.pid ∧ s.prefixLen + msgs.flatten.length + m.length < loggerEntryMaxPayload - 32)) :
    ∃ s', blogTurn A e m s = .ok (none, s') ∧ s'.procPibr = 0 := by
  have hp0 : s.procPibr ≠ 0 := by have := h.page.1; omega
  have hroom := h.room
  rw [loggerEntryMaxPayload_eq] at hroom
  have hflush := flushBuffer_eq
    (s := ⟨s.cntr, s.procid, s.prefixBuf, s.prefixLen, 0, s.mem, s.live, s.allocs + 1, s.trace⟩) h.page h.pid
    (by omega) (by have := h.pos; omega) h.word
  have hswap : swapAndFlushBuffer A e s.procPibr s = flushBuffer s.procPibr
      ⟨s.cntr, s.procid, s.prefixBuf, s.prefixLen, 0, s.mem, s.live, s.allocs + 1, s.trace⟩ := by
    simp [swapAndFlushBuffer, swapBuffers, allocBuffer, hA, hp0, pibrPtr_page h.page]
  refine ⟨_, blogTurn_of_swap h m (hswap.trans hflush) hfit, ?_⟩
  split_ifs <;> rfl

end Turn

end Cosmost.Bblog
