import Cosmost.Limits
import Cosmost.Lib.Text
import Cosmost.Bblog.Buffer

/-!
# The unbatched logger (`blog.c`), one thread

`blog` writes each record to the log on its own, behind a prefix that is made once for the process and stays in the
thread's buffer. `blogAll_log`: records that it accepts come out one an entry, each between the prefix and a brace.
-/

namespace Cosmost.Blog

open Cosmost.Lib Cosmost.Bblog

/-- The variables of `blog` and of its `init_buffer`, and the log. -/
structure State where
  /-- `_cntr`. -/
  cntr : Nat
  threadPid : Nat
  procid : Nat
  prefixBuf : List Char
  prefixLen : Nat
  /-- The thread's buffer of `BUFFER_SIZE` bytes. -/
  buffer : Bytes
  log : List (List Char)

/-- A process that has not logged. -/
def State.init (c : Nat) (buffer : Bytes) : State := ⟨c, 0, 0, [], 0, buffer, []⟩

/-- `"{\"PID\":%d,\"PROC\":\"%s\",\"CNTR\":%llu,\"REC\":"`. -/
def prefixText (e : Process) (n : Nat) : List Char :=
  "\x7b\"PID\":".toList ++ (decimal e.pid ++ (",\"PROC\":\"".toList ++ (e.name ++ ("\",\"CNTR\":".toList ++
    (decimal n ++ ",\"REC\":".toList)))))

/-- `init_buffer`: the length of the prefix unless it fails, and the variables. -/
def initBuffer (e : Process) (s : State) : Option Nat × State :=
  if s.threadPid = e.pid then (some s.prefixLen, s)
  else
    let s := { s with buffer := blit s.buffer 0 [nul] }
    if s.procid = e.pid then
      (some s.prefixLen, { s with threadPid := s.procid, buffer := strcpy s.buffer 0 s.prefixBuf })
    else
      let n := (s.cntr + 1) % 2 ^ 64
      let s := { s with
        cntr := n, prefixBuf := fits maxPrefixLen (prefixText e n), prefixLen := (prefixText e n).length }
      if s.prefixLen ≥ maxPrefixLen then (none, s)
      else
        (some s.prefixLen, { s with procid := e.pid, threadPid := e.pid, buffer := strcpy s.buffer 0 s.prefixBuf })

/-- `blog` on a record that `vsnprintf` prints: whether it goes to the log, and the variables. -/
def blog (e : Process) (body : List Char) (s : State) : Bool × State :=
  match initBuffer e s with
  | (none, s) => (false, s)
  | (some size, s) =>
    let s := { s with buffer := strcpy s.buffer size (fits (noBatchBufferSize - size - 2) body) }
    let size := size + body.length
    if size ≥ noBatchBufferSize - 2 then (false, s)
    else
      let s := { s with buffer := strcpy s.buffer size "\x7d".toList }
      (true, { s with log := s.log ++ [cstr noBatchBufferSize s.buffer] })

/-- `blog` on each of the bodies, as long as it accepts them. -/
def blogAll (e : Process) : List (List Char) → State → Option State
  | [], s => some s
  | body :: bodies, s =>
    match blog e body s with
    | (false, _) => none
    | (true, s) => blogAll e bodies s

/-- An entry of the unbatched log. -/
def entry (pre body : List Char) : List Char := pre ++ body ++ "\x7d".toList

/-! ## What the log holds -/

theorem length_prefixText (e : Process) (n : Nat) :
    (prefixText e n).length = (decimal e.pid).length + e.name.length + (decimal n).length + 32 := by
  have h1 : "\x7b\"PID\":".toList.length = 7 := rfl
  have h2 : ",\"PROC\":\"".toList.length = 9 := rfl
  have h3 : "\",\"CNTR\":".toList.length = 9 := rfl
  have h4 : ",\"REC\":".toList.length = 7 := rfl
  unfold prefixText
  simp only [List.length_append, h1, h2, h3, h4]
  omega

theorem prefixText_nulFree (e : Process) (n : Nat) : NulFree (prefixText e n) := by
  have h : ∀ s ∈ ["\x7b\"PID\":", ",\"PROC\":\"", "\",\"CNTR\":", ",\"REC\":"], NulFree s.toList := by
    unfold NulFree nul; decide
  refine NulFree.append (h _ (by simp)) (NulFree.append (decimal_nulFree _) (NulFree.append (h _ (by simp))
    (NulFree.append e.nulFree (NulFree.append (h _ (by simp)) (NulFree.append (decimal_nulFree _) (h _ (by simp)))))))

section Log

variable {e : Process} {pre body : List Char} (hpre : NulFree pre) (hbody : NulFree body)
  (hroom : pre.length + body.length < noBatchBufferSize - 2)
include hpre hbody hroom

/-- The buffer after the record and the brace: it still starts with the prefix, and reads as the entry. -/
theorem strcpy_entry {buf : Bytes} (h : Holds buf 0 pre) :
    ∃ buf', strcpy (strcpy buf pre.length (fits (noBatchBufferSize - pre.length - 2) body))
      (pre.length + body.length) "\x7d".toList = buf' ∧ Holds buf' 0 pre ∧
      cstr noBatchBufferSize buf' = entry pre body := by
  rw [noBatchBufferSize_eq] at hroom
  have hfit : fits (noBatchBufferSize - pre.length - 2) body = body :=
    fits_eq (by rw [noBatchBufferSize_eq]; omega)
  rw [hfit]
  refine ⟨_, rfl, ?_⟩
  have h1 : Holds (strcpy buf pre.length body) 0 (pre ++ body) :=
    (h.blit_of_le _ (by omega)).append (by rw [Nat.zero_add]; exact (holds_blit _ _ _).left)
  have h2 := (h1.blit_of_le ("\x7d".toList ++ [nul])
    (show 0 + (pre ++ body).length ≤ pre.length + body.length by simp)).append
    (by rw [Nat.zero_add, List.length_append]; exact holds_blit _ _ _)
  have hbrace : NulFree "\x7d".toList := by unfold NulFree nul; decide
  refine ⟨by rw [List.append_assoc] at h2; exact h2.left, ?_⟩
  refine cstr_of_holds ((hpre.append hbody).append hbrace) (by rw [← List.append_assoc] at h2; exact h2) ?_
  have hone : "\x7d".toList.length = 1 := rfl
  rw [noBatchBufferSize_eq, entry, List.length_append, List.length_append, hone]
  omega

end Log

/-- The states of a process between two records. -/
structure Between (e : Process) (pre : List Char) (s : State) : Prop where
  nulFree : NulFree pre
  threadPid : s.threadPid = e.pid
  len : s.prefixLen = pre.length
  holds : Holds s.buffer 0 pre

/-- A record that is accepted fits, and is the next entry. -/
structure Added (e : Process) (pre body : List Char) (s s' : State) : Prop where
  between : Between e pre s'
  room : pre.length + body.length < noBatchBufferSize - 2
  log : s'.log = s.log ++ [entry pre body]

section Step

variable {e : Process} {pre body : List Char} {s s' : State} (hbody : NulFree body)
  (h : blog e body s = (true, s'))
include hbody h

/-- The records after the first. -/
theorem Between.added (hs : Between e pre s) : Added e pre body s s' := by
  simp only [blog, initBuffer, hs.threadPid, ↓reduceIte, hs.len] at h
  split_ifs at h with hroom
  · simp at h
  · obtain ⟨buf', hbuf, hpre, htext⟩ := strcpy_entry hs.nulFree hbody (by omega) hs.holds
    rw [hbuf] at h
    obtain rfl := (Prod.mk.inj h).2
    exact ⟨⟨hs.nulFree, rfl, rfl, hpre⟩, by omega, by simp only [htext]⟩

/-- The first record of a process makes the prefix. -/
theorem first_added {c : Nat} {buf : Bytes} (hs : s = .init c buf) :
    (prefixText e ((c + 1) % 2 ^ 64)).length < maxPrefixLen ∧
      Added e (prefixText e ((c + 1) % 2 ^ 64)) body s s' := by
  subst hs
  have hpid : (0 : Nat) ≠ e.pid := Nat.ne_of_lt e.pos
  simp only [blog, initBuffer, State.init, hpid, ↓reduceIte] at h
  by_cases hlen : (prefixText e ((c + 1) % 2 ^ 64)).length ≥ maxPrefixLen
  · simp only [hlen, ↓reduceIte] at h
    exact absurd (Prod.mk.inj h).1 (by decide)
  · simp only [hlen, ↓reduceIte] at h
    rw [fits_eq (by omega)] at h
    split_ifs at h with hroom
    · simp at h
    · obtain ⟨buf', hbuf, hpre, htext⟩ := strcpy_entry (prefixText_nulFree e _) hbody (by omega)
        (holds_blit (blit buf 0 [nul]) 0 (prefixText e ((c + 1) % 2 ^ 64) ++ [nul])).left
      rw [show blit (blit buf 0 [nul]) 0 (prefixText e ((c + 1) % 2 ^ 64) ++ [nul])
        = strcpy (blit buf 0 [nul]) 0 (prefixText e ((c + 1) % 2 ^ 64)) from rfl] at hbuf
      rw [hbuf] at h
      obtain rfl := (Prod.mk.inj h).2
      exact ⟨by omega, ⟨prefixText_nulFree e _, rfl, rfl, hpre⟩, by omega, by simp only [htext, State.init]⟩

end Step

/-- The records after the first, one an entry. -/
theorem Between.log {e : Process} {pre : List Char} {bodies : List (List Char)} (hbodies : ∀ b ∈ bodies, NulFree b) :
    ∀ {s t : State}, Between e pre s → blogAll e bodies s = some t →
      (∀ b ∈ bodies, pre.length + b.length < noBatchBufferSize - 2) ∧ t.log = s.log ++ bodies.map (entry pre) := by
  induction bodies with
  | nil =>
    intro s t _ h
    cases h
    simp
  | cons body bodies ih =>
    intro s t hs h
    unfold blogAll at h
    cases hb : blog e body s with
    | mk ok s' =>
      rw [hb] at h
      cases ok with
      | false => cases h
      | true =>
        have hadd := hs.added (hbodies body List.mem_cons_self) hb
        obtain ⟨h1, h2⟩ := ih (fun b hm => hbodies b (List.mem_cons_of_mem _ hm)) hadd.between h
        refine ⟨fun b hm => ?_, by rw [h2, hadd.log]; simp⟩
        rcases List.mem_cons.mp hm with rfl | hm
        · exact hadd.room
        · exact h1 b hm

/-- **Records that `blog` accepts fit its buffer behind the prefix, and come out one an entry.** -/
theorem blogAll_log {e : Process} {bodies : List (List Char)} (hbodies : ∀ b ∈ bodies, NulFree b) {c : Nat}
    {buf : Bytes} {t : State} (h : blogAll e bodies (.init c buf) = some t) :
    (∀ b ∈ bodies, (prefixText e ((c + 1) % 2 ^ 64)).length < maxPrefixLen ∧
      (prefixText e ((c + 1) % 2 ^ 64)).length + b.length < noBatchBufferSize - 2) ∧
    t.log = bodies.map (entry (prefixText e ((c + 1) % 2 ^ 64))) := by
  cases bodies with
  | nil =>
    cases h
    exact ⟨fun b hm => absurd hm List.not_mem_nil, rfl⟩
  | cons body bodies =>
    unfold blogAll at h
    cases hb : blog e body (.init c buf) with
    | mk ok s' =>
      rw [hb] at h
      cases ok with
      | false => cases h
      | true =>
        obtain ⟨hlen, hadd⟩ := first_added (hbodies body List.mem_cons_self) hb rfl
        obtain ⟨h1, h2⟩ := hadd.between.log (fun b hm => hbodies b (List.mem_cons_of_mem _ hm)) h
        refine ⟨fun b hm => ⟨hlen, ?_⟩, by rw [h2, hadd.log]; rfl⟩
        rcases List.mem_cons.mp hm with rfl | hm
        · exact hadd.room
        · exact h1 b hm

/-- Records that fit are accepted. -/
theorem Between.accepted {e : Process} {pre : List Char} {bodies : List (List Char)}
    (hbodies : ∀ b ∈ bodies, NulFree b)
    (hroom : ∀ b ∈ bodies, pre.length + b.length < noBatchBufferSize - 2) : ∀ {s : State}, Between e pre s →
      ∃ t, blogAll e bodies s = some t := by
  induction bodies with
  | nil => intro s _; exact ⟨s, rfl⟩
  | cons body bodies ih =>
    intro s hs
    have hfit := hroom body List.mem_cons_self
    have hb : ∃ s', blog e body s = (true, s') := by
      simp only [blog, initBuffer, hs.threadPid, ↓reduceIte, hs.len, ge_iff_le, not_le.mpr hfit]
      exact ⟨_, rfl⟩
    obtain ⟨s', hs'⟩ := hb
    obtain ⟨t, ht⟩ := ih (fun b hm => hbodies b (List.mem_cons_of_mem _ hm))
      (fun b hm => hroom b (List.mem_cons_of_mem _ hm)) (hs.added (hbodies body List.mem_cons_self) hs').between
    exact ⟨t, by rw [blogAll, hs']; exact ht⟩

/-- Records that fit behind the prefix of a new process are accepted. -/
theorem blogAll_accepts {e : Process} {bodies : List (List Char)} (hbodies : ∀ b ∈ bodies, NulFree b) {c : Nat}
    (hlen : (prefixText e ((c + 1) % 2 ^ 64)).length < maxPrefixLen)
    (hroom : ∀ b ∈ bodies, (prefixText e ((c + 1) % 2 ^ 64)).length + b.length < noBatchBufferSize - 2)
    (buf : Bytes) : ∃ t, blogAll e bodies (.init c buf) = some t := by
  cases bodies with
  | nil => exact ⟨_, rfl⟩
  | cons body bodies =>
    have hfit := hroom body List.mem_cons_self
    have hpid : (0 : Nat) ≠ e.pid := Nat.ne_of_lt e.pos
    have hb : ∃ s', blog e body (.init c buf) = (true, s') := by
      simp only [blog, initBuffer, State.init, hpid, ↓reduceIte, ge_iff_le, not_le.mpr hlen, not_le.mpr hfit]
      exact ⟨_, rfl⟩
    obtain ⟨s', hs'⟩ := hb
    obtain ⟨t, ht⟩ := (first_added (hbodies body List.mem_cons_self) hs' rfl).2.between.accepted
      (fun b hm => hbodies b (List.mem_cons_of_mem _ hm)) (fun b hm => hroom b (List.mem_cons_of_mem _ hm))
    exact ⟨t, by rw [blogAll, hs']; exact ht⟩

end Cosmost.Blog
