import Cosmost.Bblog.Loop

/-!
# Runs of one process with one thread

`Running e s msgs`: the current buffer holds the prefix of the process `e` and the records `msgs`, and is the only one
allocated. Every record that fits an empty buffer is stored in it, or in a new one after the old one went to the log
(`bblog_placed`).
-/

namespace Cosmost.Bblog

open Cosmost.Lib

/-- `memalign` succeeds as long as there is at most one buffer. -/
def Serves (A : Allocator) : Prop := ∀ n live, live.length ≤ 1 → (A.memalign n live).isSome

/-- The records that `bblog` builds of these bodies when the counter stands at `c`. -/
def records : Nat → List (Option (List Char)) → List (List Char)
  | _, [] => []
  | c, body :: bodies => record (recordKey ((c + 1) % 2 ^ 64)) body :: records ((c + 1) % 2 ^ 64) bodies

/-- `bblog` on each of the bodies, its loops with at most `n` turns. -/
def logAll (A : Allocator) (e : Process) (n : Nat) : List (Option (List Char)) → State → Except Stuck State
  | [], s => .ok s
  | body :: bodies, s => do
    let (_, s) ← bblog A e n body s
    logAll A e n bodies s

/-- A record that fits an empty buffer fits `bblog`'s own. -/
theorem bblog_fitting {A : Allocator} {e : Process} {s : State} {body : Option (List Char)} {k n : Nat}
    (hm : FitsEmpty k (record (recordKey s.nextCntr) body)) :
    bblog A e n body s = blogLoop A e (record (recordKey s.nextCntr) body) n { s with cntr := s.nextCntr } := by
  have hsize : ¬ (record (recordKey s.nextCntr) body).length - 1 ≥ bufferSize - 2 := by
    rw [FitsEmpty, loggerEntryMaxPayload_eq] at hm
    rw [bufferSize_eq]
    omega
  rw [bblog, if_neg hsize]

/-- The current buffer is of this process, and the only one. -/
structure Running (e : Process) (s : State) (msgs : List (List Char)) : Prop extends Ready s msgs where
  procid : s.procid = e.pid
  prefixBuf : s.prefixBuf = prefixText e
  only : s.live = [s.procPibr]

section Run

variable {A : Allocator} {e : Process} (he : e.Fits) (hA : Serves A)
include he hA

theorem bblogInit_running (c : Nat) (mem : Nat → Pibr) :
    Running e (bblogInit A e (.init c mem)) [] ∧ (bblogInit A e (.init c mem)).trace = [] ∧
      (bblogInit A e (.init c mem)).cntr = c := by
  obtain ⟨a, s', heq, hf⟩ := bblogInit_fresh (s := .init c mem) he (prefixOk_init c mem) rfl (hA _ _ (Nat.zero_le 1))
  have hready := hf.ready he (prefixOk_init c mem) (by rw [freshPrefix_init]; exact length_prefixText_pos e)
  rw [heq]
  exact ⟨⟨hready, hf.procid, hf.prefixBuf.trans (freshPrefix_init e c mem), hf.live⟩, hf.trace, hf.cntr⟩

/-- Where a record goes: behind the others, or, after the others went to the log, to the front of a new buffer. -/
inductive Placed (e : Process) (s : State) (msgs : List (List Char)) (m : List Char) (s' : State) : Prop
  | behind : Running e s' (msgs ++ [m]) →
      s'.trace = s.trace ++ [.stored s.procPibr ((prefixText e).length + msgs.flatten.length) m] → Placed e s msgs m s'
  | front : msgs.flatten ≠ [] → Running e s' [m] → s'.trace = s.trace ++
      [.written s.procPibr (closedText (s.mem s.procPibr).buf ((prefixText e).length + msgs.flatten.length)),
        .stored s'.procPibr (prefixText e).length m] → Placed e s msgs m s'

/-- `_blog` with a record that fits an empty buffer. -/
theorem blogLoop_placed {s : State} {msgs : List (List Char)} (h : Running e s msgs) {m : List Char}
    (hm : FitsEmpty (prefixText e).length m) (n : Nat) :
    ∃ s', blogLoop A e m (n + 2) s = .ok (m.length, s') ∧ s'.cntr = s.cntr ∧ Placed e s msgs m s' := by
  have hpre : freshPrefix e s = prefixText e := by rw [freshPrefix, if_pos h.procid, h.prefixBuf]
  have hlen : s.prefixLen = (prefixText e).length := by rw [← h.prefixBuf, h.len]
  obtain ⟨s', hs', hl⟩ := blogLoop_logged he h.toReady (hA s.allocs s.live (by rw [h.only]; rfl)) (hpre.symm ▸ hm) n
  refine ⟨s', hs', ?_⟩
  cases hl with
  | stored _ hst =>
    refine ⟨hst.cntr, .behind ⟨hst.ready, hst.procid.trans h.procid, hst.prefixBuf.trans h.prefixBuf, ?_⟩ ?_⟩
    · rw [hst.live, hst.procPibr, h.only]
    · rw [hst.trace, ← hlen]
  | @swapped s₁ hfit hsw hst =>
    -- an empty buffer has room
    have hmsgs : msgs.flatten ≠ [] := by
      intro hnil
      refine hfit ⟨h.procid, ?_⟩
      rw [hnil, List.length_nil, Nat.add_zero, hlen]
      exact hm
    obtain ⟨hlive, htrace⟩ := hsw.logged h.procid hmsgs
    have hlen₁ : s₁.prefixLen = (prefixText e).length := by rw [← hsw.ready.len, hsw.prefixBuf, hpre]
    refine ⟨hst.cntr.trans hsw.cntr, .front hmsgs ⟨hst.ready, hst.procid.trans hsw.procid, ?_, ?_⟩ ?_⟩
    · rw [hst.prefixBuf, hsw.prefixBuf, hpre]
    · rw [hst.live, hst.procPibr, hlive, h.only, List.erase_cons_head]
    · rw [hst.trace, htrace, hst.procPibr, hlen, hlen₁]
      simp

/-- `bblog` with a record that fits an empty buffer. -/
theorem bblog_placed {s : State} {msgs : List (List Char)} (h : Running e s msgs) {body : Option (List Char)}
    (hm : FitsEmpty (prefixText e).length (record (recordKey s.nextCntr) body)) (n : Nat) :
    ∃ s' ret, bblog A e (n + 2) body s = .ok (ret, s') ∧ s'.cntr = s.nextCntr ∧
      Placed e { s with cntr := s.nextCntr } msgs (record (recordKey s.nextCntr) body) s' := by
  have hcntr : Running e { s with cntr := s.nextCntr } msgs :=
    ⟨h.toReady.withCntr _, h.procid, h.prefixBuf, h.only⟩
  obtain ⟨s', hs', hc, hp⟩ := blogLoop_placed he hA hcntr hm n
  exact ⟨s', _, (bblog_fitting hm).trans hs', hc, hp⟩

end Run

/-- The signal handler's exit puts the records of the current buffer into the log. -/
theorem bblogExit_signal {A : Allocator} {e : Process} (he : e.Fits) (hA : Serves A) {s : State}
    {msgs : List (List Char)} (h : Running e s msgs) (sig : Nat) :
    ∃ s', bblogExit A e (-(sig + 1)) s = .ok s' ∧ s'.trace = s.trace ++
      if msgs.flatten = [] then []
      else [.written s.procPibr (closedText (s.mem s.procPibr).buf ((prefixText e).length + msgs.flatten.length))] := by
  obtain ⟨s', hs', hsw⟩ := swapAndFlush_swapped he h.toReady (hA s.allocs s.live (by rw [h.only]; rfl))
  have hneg : -((sig : Int) + 1) < 0 := by omega
  refine ⟨s', by rw [bblogExit, if_pos hneg, hs'], ?_⟩
  by_cases hmsgs : msgs.flatten = []
  · rw [if_pos hmsgs, (hsw.kept (Or.inr hmsgs)).2, List.append_nil]
  · rw [if_neg hmsgs, (hsw.logged h.procid hmsgs).2, ← h.len, h.prefixBuf]

end Cosmost.Bblog
