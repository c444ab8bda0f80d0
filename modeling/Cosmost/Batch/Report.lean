import Cosmost.Batch.Wrappers
import Cosmost.Lib.Run

/-!
# Every access is reported once

The strings handed to `notify_read_write`, followed by the pending one, are the records of the accesses in order.
`Adds r b p` says this of one function: from variables `b` it hands over and leaves pending what was pending and then
`r`, and every string is well formed. It holds of the two ways to write the access string (`notify_adds`,
`record_adds`), of both entry points, of a wrapper call (`traced_adds`) and, with `r = []`, of a close
(`close_adds`); `conserved` is the run.

`last_size` never wraps to zero, although the overlap cases may overstate it: the string of a batch is at least twice
as long as it has had accesses to count (`PendingOk.bound`).
-/

namespace Cosmost.Batch

open Cosmost.Lib Cosmost.Fs

/-! ## What is pending and what was handed over -/

/-- The pending access string. -/
def pending (b : Vars) : List Char := if b.lastFd ≠ -1 then b.access else []

/-- The access string of a call of `notify_read_write`. -/
def Effect.str : Effect → Option (List Char)
  | .notify n => some n.str
  | .snprintf .. => none

/-- The strings handed over. -/
def handed (es : List Effect) : List (List Char) := es.filterMap Effect.str

@[simp] theorem handed_nil : handed [] = [] := rfl

@[simp] theorem handed_append (es es' : List Effect) : handed (es ++ es') = handed es ++ handed es' :=
  List.filterMap_append

@[simp] theorem handed_snprintf (i s : Nat) (o : Int) (es : List Effect) :
    handed (.snprintf i s o :: es) = handed es := rfl

@[simp] theorem handed_notify (n : Notification) (es : List Effect) :
    handed (.notify n :: es) = n.str :: handed es := rfl

/-- What the access string of a report must be. -/
structure StrOk (s : List Char) : Prop where
  semicolon : s.getLast? = some ';'
  short : s.length < iostrBufsize

theorem StrOk.ne_nil {s : List Char} (h : StrOk s) : s ≠ [] := by
  rintro rfl
  simpa using h.semicolon

/-- The variables of a pending batch. -/
structure PendingOk (b : Vars) : Prop where
  range : RangeOk b
  str : StrOk b.access
  /-- `last_size` counts at most `maxBlocks` for every two characters. -/
  bound : 2 * b.lastSize ≤ b.access.length * maxBlocks

/-- Nothing pending, or a pending batch that is well formed. -/
def Good (b : Vars) : Prop := b.lastFd ≠ -1 → PendingOk b

theorem good_init : Good Vars.init := fun h => absurd rfl h

/-- An `snprintf` into the access string cuts nothing off. -/
def Effect.Roomy : Effect → Prop
  | .snprintf idx size off => idx + (ioRecord size off).length < iostrBufsize
  | .notify _ => True

/-- A function that adds `r` to what is handed over or pending. -/
structure Adds (r : List Char) (b : Vars) (p : Vars × List Effect) : Prop where
  conserves : (handed p.2).flatten ++ pending p.1 = pending b ++ r
  good : Good p.1
  strings : ∀ s ∈ handed p.2, StrOk s
  roomy : ∀ e ∈ p.2, e.Roomy

theorem adds_nil {b : Vars} (hb : Good b) : Adds [] b (b, []) :=
  ⟨by simp, hb, by simp, by simp⟩

/-- The path buffer does not matter. -/
theorem Adds.of_path {r : List Char} {b : Vars} {q : List Char} {p : Vars × List Effect}
    (h : Adds r { b with path := q } p) : Adds r b p := ⟨h.conserves, h.good, h.strings, h.roomy⟩

theorem Good.path {b : Vars} (h : Good b) (q : List Char) : Good { b with path := q } := fun hn =>
  ⟨⟨(h hn).range.off_nonneg, (h hn).range.off_lt, (h hn).range.size_pos, (h hn).range.size_lt⟩, (h hn).str,
    (h hn).bound⟩

/-! ## The two ways to write the access string -/

/-- An access of a descriptor, of some bytes, whose block range does not overflow. -/
structure Valid (fd : Int) (size : Nat) (off : Int) : Prop where
  fd_nonneg : 0 ≤ fd
  size_pos : 1 ≤ size
  size_lt : size < 2 ^ 32
  off_nonneg : 0 ≤ off
  no_overflow : off + size + 4096 < 2 ^ 63

section Writes

variable {op : String} {fd : Int} {size : Nat} {off : Int} {b : Vars} (hv : Valid fd size off)
include hv

theorem Valid.args : ¬ invalidArgs fd size off := by
  have := hv.fd_nonneg; have := hv.size_pos; have := hv.off_nonneg
  simp only [invalidArgs]; omega

theorem Valid.off_lt : off < 2 ^ 63 := by have := hv.no_overflow; omega

theorem Valid.currEnd_bounds : -2 ^ 52 ≤ currEnd size off ∧ currEnd size off < 2 ^ 52 := by
  obtain ⟨-, h1, h2, h3, h4⟩ := hv
  have hn := currStart_nonneg h3
  have hl := currStart_le_currEnd h1 h3 (by omega)
  have he : currEnd size off < 2 ^ 51 := currEnd_lt h3 (by omega)
  omega

theorem Valid.fits {n : Nat} (hn : 64 ≤ n) : Lib.fits n (ioRecord size off) = ioRecord size off :=
  fits_ioRecord hv.size_lt hv.off_lt hn

theorem Valid.strOk : StrOk (ioRecord size off) :=
  ⟨by simpa using getLast_ioRecord size off [], by
    have := length_ioRecord_le hv.size_lt hv.off_lt
    rw [iostrBufsize_eq]; omega⟩

/-- The width of the interval as `last_size` keeps it. -/
theorem Valid.width : (size32 (currEnd size off - currStart off + 1) : Int) = currEnd size off - currStart off + 1 ∧
    1 ≤ size32 (currEnd size off - currStart off + 1) ∧
    size32 (currEnd size off - currStart off + 1) ≤ maxBlocks := by
  obtain ⟨-, h1, h2, h3, h4⟩ := hv
  have hl := currStart_le_currEnd h1 h3 (by omega)
  have hw := width_le h1 h2 h3 (by omega)
  have hm := maxBlocks_eq
  have he := size32_eq (x := currEnd size off - currStart off + 1) (by omega) (by omega)
  omega

/-- The variables of a batch that was just started. -/
theorem restart_good : PendingOk (batchReadWriteNotify op fd (currStart off) (currEnd size off) size off b).1 := by
  obtain ⟨-, hw1, hw2⟩ := hv.width
  have hm := maxBlocks_eq
  have hs := currStart_nonneg hv.off_nonneg
  have hs' := currStart_lt hv.off_lt
  have h4 := four_le_length_ioRecord size off
  rw [notify_vars hv.size_lt hv.off_lt]
  refine ⟨⟨hs, by simp only; omega, hw1, by simp only; omega⟩, hv.strOk, ?_⟩
  have := Nat.mul_le_mul_right maxBlocks h4
  simp only; omega

/-- Emitting the pending batch and starting a new one. -/
theorem notify_adds (hb : Good b) :
    Adds (ioRecord size off) b (batchReadWriteNotify op fd (currStart off) (currEnd size off) size off b) := by
  have hvars : (batchReadWriteNotify op fd (currStart off) (currEnd size off) size off b).1 = _ :=
    notify_vars hv.size_lt hv.off_lt
  have hfd : fd ≠ -1 := by have := hv.fd_nonneg; omega
  have hpend : pending (batchReadWriteNotify op fd (currStart off) (currEnd size off) size off b).1
      = ioRecord size off := by rw [hvars]; simp [pending, hfd]
  have hout : handed (batchReadWriteNotify op fd (currStart off) (currEnd size off) size off b).2
      = if b.lastFd ≠ -1 then [b.access] else [] := by
    by_cases hl : b.lastFd = -1
    · simp [batchReadWriteNotify, hl]
    · have hp : b.lastSize ≠ 0 := by have := (hb hl).range.size_pos; omega
      simp [batchReadWriteNotify, notifyReadWrite, hl, hp]
  refine ⟨?_, fun _ => restart_good hv, fun s hs => ?_, fun e he => ?_⟩
  · rw [hout, hpend]
    by_cases hl : b.lastFd = -1 <;> simp [pending, hl]
  · rw [hout] at hs
    by_cases hl : b.lastFd = -1
    · simp [hl] at hs
    · simp only [ne_eq, hl, not_false_eq_true, ↓reduceIte, List.mem_singleton] at hs
      rw [hs]
      exact (hb hl).str
  · have hshort := hv.strOk.short
    simp only [batchReadWriteNotify, notifyReadWrite, List.mem_append, List.mem_ite_nil_right, List.mem_singleton] at he
    rcases he with ⟨-, rfl⟩ | rfl
    · trivial
    · simpa [Effect.Roomy] using hshort

/-- Recording an access, in the pending string or in a new one. -/
theorem record_adds (hb : Good b) (hl : b.lastFd ≠ -1) :
    Adds (ioRecord size off) b (recordIostr op fd (currStart off) (currEnd size off) size off b) := by
  by_cases hfull : Full b
  · rw [recordIostr_full hfull]
    exact notify_adds hv hb
  · rw [recordIostr_room hfull hv.size_lt hv.off_lt]
    have hlen := length_ioRecord_le hv.size_lt hv.off_lt
    obtain ⟨hr, hs, hbd⟩ := hb hl
    unfold Full at hfull
    refine ⟨by simp [pending, hl], fun _ => ⟨⟨hr.1, hr.2, hr.3, hr.4⟩, ⟨getLast_ioRecord size off _, ?_⟩, ?_⟩,
      by simp, fun e he => ?_⟩
    · simp only [List.length_append]; omega
    · simp only [List.length_append, Nat.add_mul]; omega
    · simp only [List.mem_singleton] at he
      rw [he]
      simp only [Effect.Roomy]
      omega

/-- Stretching the range leaves a well-formed batch. -/
theorem stretch_good (hb : PendingOk b) (hl : b.lastFd ≠ -1) (ht : Touches b (currStart off) (currEnd size off)) :
    PendingOk (stretch b (currStart off) (currEnd size off)
      (recordIostr op fd (currStart off) (currEnd size off) size off b).1) := by
  obtain ⟨hw, hw1, hw2⟩ := hv.width
  have hm := maxBlocks_eq
  have h4 := four_le_length_ioRecord size off
  have hbl := hb.str.short
  have hbd := hb.bound
  rw [iostrBufsize_eq] at hbl
  -- the string has room to count one more interval, whether it was added to or restarted
  obtain ⟨b', hb'⟩ : ∃ b', b' = (recordIostr op fd (currStart off) (currEnd size off) size off b).1 := ⟨_, rfl⟩
  have hgood : PendingOk b' := by
    rw [hb']
    by_cases hfull : Full b
    · rw [recordIostr_full hfull]; exact restart_good hv
    · refine (record_adds hv (fun _ => hb) hl).good (by rw [recordIostr_room hfull hv.size_lt hv.off_lt]; exact hl)
  have hroom : 2 * (b'.lastSize + maxBlocks) ≤ b'.access.length * maxBlocks := by
    rw [hb']
    by_cases hfull : Full b
    · rw [recordIostr_full hfull, notify_vars hv.size_lt hv.off_lt]
      have := Nat.mul_le_mul_right maxBlocks h4
      simp only; omega
    · rw [recordIostr_room hfull hv.size_lt hv.off_lt]
      have := Nat.mul_le_mul_right maxBlocks h4
      simp only [List.length_append, Nat.add_mul]; omega
  have hlen := hgood.str.short
  rw [iostrBufsize_eq] at hlen
  have hsum : b'.lastSize + maxBlocks < 2 ^ 32 := by
    have := Nat.mul_le_mul_right maxBlocks (Nat.le_of_lt hlen)
    omega
  have h0 := hv.size_pos
  have hr := stretch_range hb.range hgood.range (currStart_nonneg hv.off_nonneg) (currStart_lt hv.off_lt)
    (currStart_le_currEnd hv.size_pos hv.off_nonneg (by have := hv.no_overflow; omega)) (by omega) ht hsum
  rw [← hb']
  exact ⟨hr.1, by simpa using hgood.str, by rw [stretch_access]; omega⟩

/-- The first-chance entry point. -/
theorem first_adds (hb : Good b) (hl : b.lastFd ≠ -1) :
    Adds (ioRecord size off) b (batchReadWriteFirst op fd size off b).2 := by
  obtain ⟨he, he'⟩ := hv.currEnd_bounds
  rw [first_eq (hb hl).range hv.args hv.off_lt he he']
  by_cases ht : Touches b (currStart off) (currEnd size off)
  · have h : Adds (ioRecord size off) b (recordIostr op fd (currStart off) (currEnd size off) size off b) :=
      record_adds hv hb hl
    rw [if_pos ht]
    exact ⟨by simpa [pending] using h.conserves, fun _ => stretch_good hv (hb hl) hl ht, h.strings, h.roomy⟩
  · rw [if_neg ht]
    exact notify_adds hv hb

/-- The entry point for a new batch. -/
theorem second_adds (hb : Good b) : Adds (ioRecord size off) b (batchReadWriteSecond op fd size off b) := by
  rw [batchReadWriteSecond, if_neg hv.args]
  exact notify_adds hv hb

end Writes

/-! ## Calls and closes -/

/-- A traced access in scope, with a size and an offset that no sum of them overflows. -/
structure InScope (e : Entry) (c : Call) : Prop where
  counts : e.counts c
  lookup : c.lookup = true
  scope : notify c.fd sIFREG c.file.chars c.fstat c.lstat ≠ 0
  valid : Valid c.fd (e.size c) (e.off c)

/-- An in-scope access is recorded once. -/
theorem run_adds {e : Entry} {c : Call} (h : InScope e c) {b : Vars} (hb : Good b) :
    Adds (ioRecord (e.size c) (e.off c)) b (e.run true c b) := by
  rw [e.run_eq, if_pos h.counts, traced]
  have hfd : c.fd ≠ -1 := by have := h.valid.fd_nonneg; omega
  by_cases hl : b.lastFd = c.fd
  · have hlast : b.lastFd ≠ -1 := by rw [hl]; exact hfd
    obtain ⟨he, he'⟩ := h.valid.currEnd_bounds
    have hret : (batchReadWriteFirst e.op c.fd (e.size c) (e.off c) b).1 = 0 :=
      first_ret (hb hlast).range h.valid.args h.valid.off_lt he he'
    simp only [hl, hret, ↓reduceIte]
    exact first_adds h.valid hb hlast
  · have hslow : slowPath e.op c (e.size c) (e.off c) b
        = batchReadWriteSecond e.op c.fd (e.size c) (e.off c) { b with path := c.file.chars } := by
      simp only [slowPath, Call.link, h.lookup, ↓reduceIte, fdToPath_path hfd, ne_eq, h.scope, not_false_eq_true]
    simp only [hl, ↓reduceIte, hslow]
    exact (second_adds h.valid (hb.path _)).of_path

/-- A close hands the pending string over or does nothing. -/
theorem close_adds (name : String) (fd : Int) {b : Vars} (hb : Good b) : Adds [] b (closeWith name fd b) := by
  unfold closeWith
  by_cases h : (fd = -1 ∧ b.lastFd ≠ -1) ∨ (fd ≠ -1 ∧ fd = b.lastFd)
  · have hl : b.lastFd ≠ -1 := by omega
    simp only [h, ↓reduceIte, notifyReadWrite]
    refine ⟨by simp [pending, hl], fun hn => absurd rfl hn, fun s hs => ?_, fun e he => ?_⟩
    · simp only [handed_notify, handed_nil, List.mem_singleton] at hs
      rw [hs]
      exact (hb hl).str
    · simp only [List.mem_singleton] at he
      rw [he]
      trivial
  · rw [if_neg h]
    exact adds_nil hb

theorem wrapper_close_adds (w : Wrapper) (fd : Int) {b : Vars} (hb : Good b) : Adds [] b (w.close fd b) := by
  cases w <;> exact close_adds _ fd hb

/-! ## Runs -/

/-- The strings that a journal handed over. -/
def Journal.strings (j : Journal) : List (List Char) := handed (j.trace.map Prod.snd)

/-- The record that an event leaves in the journal of `w`. -/
def Event.record (w : Wrapper) : Event → List Char
  | .access e c => if e.wrapper = w then ioRecord (e.size c) (e.off c) else []
  | .close _ | .exit => []

/-- Every access of the event is in scope. -/
def Event.InScope : Event → Prop
  | .access e c => Batch.InScope e c
  | .close _ | .exit => True

/-- What a run keeps, `r` being the records of its accesses. -/
structure Reported (r : List Char) (j : Journal) : Prop where
  conserves : j.strings.flatten ++ pending j.vars = r
  good : Good j.vars
  strings : ∀ s ∈ j.strings, StrOk s
  roomy : ∀ x ∈ j.trace, x.2.Roomy

/-- Keeping the result of a function that adds a record. -/
theorem Reported.keep {r r' : List Char} {j : Journal} (h : Reported r j) {p : Vars × List Effect}
    (hp : Adds r' j.vars p) (from? : Option Call) : Reported (r ++ r') (j.keep from? p) := by
  have hs : (j.keep from? p).strings = j.strings ++ handed p.2 := by
    simp only [Journal.strings, Journal.keep, List.map_append, handed_append, List.map_map]
    congr 2
    exact List.map_id _
  refine ⟨?_, hp.good, fun s hm => ?_, fun x hx => ?_⟩
  · have h2 := hp.conserves
    have h1 := h.conserves
    rw [hs, List.flatten_append, List.append_assoc]
    show j.strings.flatten ++ ((handed p.2).flatten ++ pending p.1) = r ++ r'
    rw [h2, ← List.append_assoc, h1]
  · rw [hs, List.mem_append] at hm
    exact hm.elim (h.strings s) (hp.strings s)
  · simp only [Journal.keep, List.mem_append, List.mem_map] at hx
    rcases hx with hx | ⟨e, he, rfl⟩
    · exact h.roomy x hx
    · exact hp.roomy e he

/-- One event. -/
theorem Reported.step {w : Wrapper} {r : List Char} {j : Journal} (h : Reported r j) {e : Event} (he : e.InScope) :
    Reported (r ++ e.record w) (j.step w e) := by
  cases e with
  | access e c =>
    by_cases hw : e.wrapper = w
    · simp only [Journal.step, Event.record, hw, ↓reduceIte]
      exact h.keep (run_adds he h.good) _
    · simpa only [Journal.step, Event.record, hw, ↓reduceIte, List.append_nil] using h
  | close fd =>
    by_cases hfd : fd = -1
    · simpa only [Journal.step, Event.record, hfd, ↓reduceIte, List.append_nil] using h
    · simp only [Journal.step, Event.record, hfd, ↓reduceIte]
      exact h.keep (wrapper_close_adds w fd h.good) _
  | exit => exact h.keep (wrapper_close_adds w (-1) h.good) _

/-- A run of in-scope accesses and closes. -/
theorem Reported.run {w : Wrapper} {es : List Event} : ∀ {r : List Char} {j : Journal}, Reported r j →
    (∀ e ∈ es, e.InScope) → Reported (r ++ (es.map (Event.record w)).flatten) (es.foldl (Journal.step w) j) := by
  induction es with
  | nil => intro r j h _; simpa using h
  | cons e es ih =>
    intro r j h hes
    have h1 := h.step (w := w) (hes e List.mem_cons_self)
    have h2 := ih h1 fun e' he' => hes e' (List.mem_cons_of_mem _ he')
    simpa [List.append_assoc] using h2

theorem reported_init : Reported [] Journal.init := ⟨rfl, good_init, by simp [Journal.strings, Journal.init], by
  simp [Journal.init]⟩

/-- The first-chance entry point is never tried in vain: an access that finds its descriptor's batch pending gets `0`
from it. -/
def Event.FirstTaken (w : Wrapper) (j : Journal) : Event → Prop
  | .access e c => e.wrapper = w → j.vars.lastFd = c.fd →
      (batchReadWriteFirst e.op c.fd (e.size c) (e.off c) j.vars).1 = 0
  | .close _ | .exit => True

theorem Reported.firstTaken {w : Wrapper} {r : List Char} {j : Journal} (h : Reported r j) {e : Event}
    (he : e.InScope) : e.FirstTaken w j := by
  cases e with
  | access e c =>
    intro _ hl
    have hv := he.valid
    obtain ⟨h1, h2⟩ := hv.currEnd_bounds
    exact first_ret (h.good (by rw [hl]; have := hv.fd_nonneg; omega)).range hv.args hv.off_lt h1 h2
  | close => trivial
  | exit => trivial

theorem Reported.eachFirstTaken {w : Wrapper} {es : List Event} : ∀ {r : List Char} {j : Journal}, Reported r j →
    (∀ e ∈ es, e.InScope) → EachStep (Journal.step w) (fun j e => e.FirstTaken w j) j es := by
  induction es with
  | nil => intro _ _ _ _; trivial
  | cons e es ih =>
    intro r j h hes
    have he := hes e List.mem_cons_self
    exact ⟨h.firstTaken he, ih (h.step (w := w) he) fun e' he' => hes e' (List.mem_cons_of_mem _ he')⟩

/-- **Every traced access is reported exactly once, in order and whole.** In every run of in-scope accesses, closes
and the thread's exit, for each of the six sets of variables: every string handed to `notify_read_write` is not
empty, ends in `;` and fits the access buffer; the strings handed over and then the pending one are the records of
the accesses in order; no `snprintf` cuts a record off; and `batch_read_write_first` never returns `-1`. -/
theorem every_access_reported_once (w : Wrapper) (es : List Event) (hes : ∀ e ∈ es, e.InScope) :
    let j := es.foldl Thread.step Thread.init w
    (∀ s ∈ j.strings, s ≠ [] ∧ s.getLast? = some ';' ∧ s.length < iostrBufsize) ∧
    j.strings.flatten ++ pending j.vars = (es.map (Event.record w)).flatten ∧
    (∀ x ∈ j.trace, x.2.Roomy) ∧
    EachStep (Journal.step w) (fun j e => e.FirstTaken w j) Journal.init es := by
  intro j
  have h : Reported ([] ++ (es.map (Event.record w)).flatten) j := by
    rw [show j = es.foldl (Journal.step w) Journal.init from foldl_step w es Thread.init]
    exact reported_init.run hes
  refine ⟨fun s hs => ?_, by simpa using h.conserves, h.roomy, reported_init.eachFirstTaken hes⟩
  have := h.strings s hs
  exact ⟨this.ne_nil, this.semicolon, this.short⟩

/-- A read of 4096 bytes that ends at `pos`. -/
def sampleRead (pos : Int) : Event :=
  .access .read ⟨3, 4096, pos, 0, false, fileA, true, .mode 0x81a4, .mode 0x81a4⟩

/-- Two adjacent reads, then the close of their descriptor. -/
theorem two_reads_reported_once :
    let j := [sampleRead 4096, sampleRead 8192, .close 3].foldl Thread.step Thread.init .read
    j.strings.flatten ++ pending j.vars = "4096@0;4096@4096;".toList := by
  have h := (every_access_reported_once .read [sampleRead 4096, sampleRead 8192, .close 3] (by
    intro e he
    simp only [List.mem_cons, List.not_mem_nil, or_false] at he
    rcases he with rfl | rfl | rfl
    · exact ⟨by decide, rfl, by decide, ⟨by decide, by decide, by decide, by decide, by decide⟩⟩
    · exact ⟨by decide, rfl, by decide, ⟨by decide, by decide, by decide, by decide, by decide⟩⟩
    · trivial)).2.1
  exact h.trans (by decide)

end Cosmost.Batch
