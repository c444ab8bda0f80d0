import Cosmost.Lib.Print
import Cosmost.Bblog.Loop
import Cosmost.Blog

/-!
# How a record is closed (`bblog`, `blog`)

Both loggers print the body of a record behind what is in their buffer already, add the result of `vsnprintf` to the size,
refuse the record if the sum is too large, and else append a character and a NUL (`closeRecord`). The test agrees with the
limit that `vsnprintf` was given to the byte, so a body is accepted exactly when all of it was written. But a negative
result is added like any other: if the sum is not below zero, the record is accepted without its body, and its last
character stands on what was there before.

`passed_or_refused_iff`: a record is passed on whole or refused exactly when `vsnprintf` does not fail with a result that the size
makes up for. `failed_print_accepted` is a failure with the usual result `-1`.
-/

namespace Cosmost

open Cosmost.Lib

/-- What `bblog` and `blog` do in a buffer of `room` bytes behind the first `size`: the bytes, and their number unless the
record is refused. -/
def closeRecord (room : Nat) (last : Char) (size : Nat) (v : Print) (buffer : Bytes) : Bytes × Option Nat :=
  let buffer := v.write (size32 (room - size - 2)) buffer size
  let size := size32 (size + v.ret)
  if size ≥ room - 2 then (buffer, none)
  else
    let buffer := blit buffer size [last]
    let size := size + 1
    (blit buffer size [nul], some size)

section Close

variable {room : Nat} {pre : List Char} {buffer : Bytes} (hbuf : Holds buffer 0 pre)
  (hroom : pre.length + 2 < room) (hmax : room < 2 ^ 31)
include hroom hmax

theorem limit_eq : size32 ((room : Int) - pre.length - 2) = room - pre.length - 2 := by
  have h := size32_eq (show 0 ≤ (room : Int) - pre.length - 2 by omega) (by omega)
  omega

/-- The size of a text, which does not wrap. -/
theorem size_text {s : List Char} (short : s.length < 2 ^ 31) :
    size32 ((pre.length : Int) + s.length) = pre.length + s.length := by
  have h := size32_eq (show 0 ≤ (pre.length : Int) + s.length by omega) (by omega)
  omega

include hbuf in
/-- **A body that was written whole is closed.** -/
theorem closeRecord_fits (last : Char) {s : List Char} (short : s.length < 2 ^ 31) (hs : s.length < room - pre.length - 2) :
    ∃ buf, closeRecord room last pre.length (.text s short) buffer = (buf, some (pre ++ s ++ [last]).length) ∧
      Holds buf 0 (pre ++ s ++ [last] ++ [nul]) ∧ (pre ++ s ++ [last]).length < room := by
  have hlen : (pre ++ s ++ [last]).length = pre.length + s.length + 1 := by
    simp only [List.length_append, List.length_singleton]
  have hsmall : ¬ pre.length + s.length ≥ room - 2 := by omega
  refine ⟨_, by
    simp only [closeRecord, limit_eq hroom hmax, Print.ret, size_text hroom hmax short, hsmall, ↓reduceIte, hlen]
    rfl, ?_, by omega⟩
  have hbody : Holds ((Print.text s short).write (room - pre.length - 2) buffer pre.length) 0 (pre ++ s) :=
    (Print.write_before _ hbuf le_rfl).append (by rw [Nat.zero_add]; exact Print.holds_write hs)
  have hlast : Holds (blit ((Print.text s short).write (room - pre.length - 2) buffer pre.length)
      (pre.length + s.length) [last]) 0 (pre ++ s ++ [last]) :=
    (hbody.blit_of_le _ (by simp)).append (by rw [Nat.zero_add, List.length_append]; exact holds_blit _ _ _)
  exact (hlast.blit_of_le _ (by omega)).append (by rw [Nat.zero_add, hlen]; exact holds_blit _ _ _)

/-- A body that was cut is refused. -/
theorem closeRecord_long {last : Char} {s : List Char} {short : s.length < 2 ^ 31} (hs : ¬ s.length < room - pre.length - 2) :
    (closeRecord room last pre.length (.text s short) buffer).2 = none := by
  have hlarge : pre.length + s.length ≥ room - 2 := by omega
  simp only [closeRecord, Print.ret, size_text hroom hmax short, hlarge, ↓reduceIte]

/-- A failure is refused if the sum is below zero. -/
theorem closeRecord_refused {last : Char} {written : List Char} {code : Nat} {valid : code < 2 ^ 31} (h : pre.length ≤ code) :
    (closeRecord room last pre.length (.error written code valid) buffer).2 = none := by
  have hwrap : size32 ((pre.length : Int) + -((code : Int) + 1)) ≥ room - 2 := by
    rw [size32]
    omega
  simp only [closeRecord, Print.ret, hwrap, ↓reduceIte]

/-- **Any other failure is accepted**, with what stood there before. -/
theorem closeRecord_garbled (last : Char) (buffer : Bytes) (written : List Char) {code : Nat} (valid : code < 2 ^ 31) (h : ¬ pre.length ≤ code) :
    ∃ buf size, closeRecord room last pre.length (.error written code valid) buffer = (buf, some size) := by
  have hsize : size32 ((pre.length : Int) + -((code : Int) + 1)) = pre.length - (code + 1) := by
    rw [size32]
    omega
  have hsmall : ¬ pre.length - (code + 1) ≥ room - 2 := by omega
  simp only [closeRecord, Print.ret, hsize, hsmall, ↓reduceIte]
  exact ⟨_, _, rfl⟩

include hbuf in
/-- The start of the buffer is kept. -/
theorem closeRecord_keeps (last : Char) {v : Print} (hv : v.Sound pre.length) :
    Holds (closeRecord room last pre.length v buffer).1 0 pre := by
  have hprint : Holds (v.write (size32 (room - pre.length - 2)) buffer pre.length) 0 pre :=
    Print.write_before _ hbuf le_rfl
  cases v with
  | text s short =>
    simp only [closeRecord, Print.ret, size_text hroom hmax short]
    split_ifs
    · exact hprint
    · exact (hprint.blit_of_le _ (by omega)).blit_of_le _ (by omega)
  | error written code valid =>
    have hwrap : size32 ((pre.length : Int) + -((code : Int) + 1)) ≥ room - 2 := by
      have hle : pre.length ≤ code := hv
      rw [size32]
      omega
    simp only [closeRecord, Print.ret, hwrap, ↓reduceIte]
    exact hprint

end Close

/-! ## `bblog` -/

namespace Bblog

/-- `"\"REC_%llu\":"`. -/
def keyText (n : Nat) : List Char := "\"REC_".toList ++ (decimal n ++ "\":".toList)

/-- `bblog` up to its call of `_blog`. -/
def buildRecord (n : Nat) (v : Print) (buffer : Bytes) : Bytes × Option Nat :=
  closeRecord bufferSize ',' (keyText n).length v (strcpy buffer 0 (fits 32 (keyText n)))

/-- `bblog`, its loop with at most `turns` turns; `buffer` is that of the thread. -/
def bblogPrint (A : Allocator) (e : Process) (turns : Nat) (v : Print) (buffer : Bytes) (s : State) :
    Except Stuck (Int × State) :=
  let n := s.nextCntr
  let s := { s with cntr := n }
  match buildRecord n v buffer with
  | (_, none) => .ok (-1, s)
  | (buffer, some size) => blogLoop A e ((List.range size).map buffer) turns s

/-- The record that `_blog` should get. -/
def wholeRecord (n : Nat) (body : List Char) : List Char := keyText n ++ body ++ [',']

/-- A body goes to `_blog` as a whole record with a NUL behind it, in the buffer; and what could not be written whole
is refused with `-1`, and only counted. -/
inductive PassedOrRefused (A : Allocator) (e : Process) (turns : Nat) (v : Print) (buffer : Bytes) (s : State) : Prop
  | passed (body : List Char) (short : body.length < 2 ^ 31) (buf : Bytes) :
      v = .text body short → v.Untruncated (bufferSize - (keyText s.nextCntr).length - 2) →
      buildRecord s.nextCntr v buffer = (buf, some (wholeRecord s.nextCntr body).length) →
      Holds buf 0 (wholeRecord s.nextCntr body ++ [nul]) → (wholeRecord s.nextCntr body).length < bufferSize →
      bblogPrint A e turns v buffer s =
        blogLoop A e (wholeRecord s.nextCntr body) turns { s with cntr := s.nextCntr } →
      PassedOrRefused A e turns v buffer s
  | refused : ¬ v.Untruncated (bufferSize - (keyText s.nextCntr).length - 2) →
      bblogPrint A e turns v buffer s = .ok (-1, { s with cntr := s.nextCntr }) → PassedOrRefused A e turns v buffer s

theorem length_keyText_lt {n : Nat} (h : n < 2 ^ 64) : (keyText n).length < 32 := by
  have hdigits : (decimal n).length ≤ 20 := length_decimal_le (by omega) (by omega)
  have h1 : "\"REC_".toList.length = 5 := rfl
  have h2 : "\":".toList.length = 2 := rfl
  have hkey : (keyText n).length = ("\"REC_".toList ++ (decimal n ++ "\":".toList)).length := rfl
  rw [hkey, List.length_append, List.length_append, h1, h2]
  omega

theorem nextCntr_lt (s : State) : s.nextCntr < 2 ^ 64 := Nat.mod_lt _ (by omega)

/-- The key is not cut. -/
theorem recordKey_eq {n : Nat} (h : n < 2 ^ 64) : recordKey n = keyText n := fits_eq (length_keyText_lt h)

/-- What `_blog` returns is no error. -/
theorem blogTurn_ret {A : Allocator} {e : Process} {m : List Char} {s s' : State} {ret : Int}
    (h : blogTurn A e m s = .ok (some ret, s')) : 0 ≤ ret := by
  simp only [blogTurn, bind, Except.bind] at h
  repeat' split at h
  all_goals
    cases h
    try omega

theorem blogLoop_ret {A : Allocator} {e : Process} {m : List Char} {ret : Int} {s' : State} (n : Nat) : ∀ {s : State},
    blogLoop A e m n s = .ok (ret, s') → 0 ≤ ret := by
  induction n with
  | zero => intro s h; simp [blogLoop] at h
  | succ n ih =>
    intro s h
    cases ht : blogTurn A e m s with
    | error x => simp [blogLoop, ht, bind, Except.bind] at h
    | ok x =>
      obtain ⟨r, s₁⟩ := x
      cases r with
      | none => exact ih ((blogLoop_next ht n).symm.trans h)
      | some r =>
        rw [blogLoop_done ht n] at h
        cases h
        exact blogTurn_ret ht

section Bblog

variable {A : Allocator} {e : Process} {turns : Nat} {v : Print} {buffer : Bytes} {s : State}

/-- The key is in the buffer. -/
theorem holds_key (s : State) (buffer : Bytes) :
    Holds (strcpy buffer 0 (fits 32 (keyText s.nextCntr))) 0 (keyText s.nextCntr) := by
  rw [fits_eq (length_keyText_lt (nextCntr_lt s))]
  exact (holds_blit _ _ _).left

/-- The key leaves room. -/
theorem key_room (s : State) : (keyText s.nextCntr).length + 2 < bufferSize := by
  have := length_keyText_lt (nextCntr_lt s)
  rw [bufferSize_eq]
  omega

/-- A record that is refused is only counted. -/
theorem bblogPrint_refused (h : (buildRecord s.nextCntr v buffer).2 = none) :
    bblogPrint A e turns v buffer s = .ok (-1, { s with cntr := s.nextCntr }) := by
  obtain ⟨buf, hbuild⟩ : ∃ buf, buildRecord s.nextCntr v buffer = (buf, none) := ⟨_, Prod.ext rfl h⟩
  simp only [bblogPrint, hbuild]

/-- A record that is accepted is passed to `_blog`. -/
theorem bblogPrint_passed {buf : Bytes} {m : List Char} (h : buildRecord s.nextCntr v buffer = (buf, some m.length))
    (hm : Holds buf 0 m) :
    bblogPrint A e turns v buffer s = blogLoop A e m turns { s with cntr := s.nextCntr } := by
  simp only [bblogPrint, h, map_range_of_holds hm]

/-- **`bblog` passes a record on whole or refuses it exactly when the failure of `vsnprintf`, if any, shows in the
size.** -/
theorem bblog_passed_or_refused_iff : PassedOrRefused A e turns v buffer s ↔ v.Sound (keyText s.nextCntr).length := by
  have hmax : bufferSize < 2 ^ 31 := by decide
  constructor
  · rintro (⟨body, short, buf, rfl, -⟩ | ⟨-, hret⟩)
    · trivial
    · cases v with
      | text body short => trivial
      | error written code valid =>
        by_contra hsound
        obtain ⟨buf, size, hclose⟩ := closeRecord_garbled (key_room s) hmax ','
          (strcpy buffer 0 (fits 32 (keyText s.nextCntr))) written valid hsound
        simp only [bblogPrint, buildRecord, hclose] at hret
        exact absurd (blogLoop_ret turns hret) (by decide)
  · intro hsound
    cases v with
    | text body short =>
      by_cases hfit : body.length < bufferSize - (keyText s.nextCntr).length - 2
      · obtain ⟨buf, hclose, hholds, hlen⟩ := closeRecord_fits (holds_key s buffer) (key_room s) hmax ',' short
          hfit
        exact .passed body short buf rfl hfit hclose hholds hlen (bblogPrint_passed hclose hholds.left)
      · exact .refused hfit (bblogPrint_refused (closeRecord_long (key_room s) hmax hfit))
    | error written code valid =>
      exact .refused not_false (bblogPrint_refused (closeRecord_refused (key_room s) hmax hsound))

/-- On a body that is printed this is the `bblog` of `Bblog.Buffer`. -/
theorem bblogPrint_text (body : List Char) (short : body.length < 2 ^ 31) :
    bblogPrint A e turns (.text body short) buffer s = bblog A e turns (some body) s := by
  have hmax : bufferSize < 2 ^ 31 := by decide
  have hrecord : record (recordKey s.nextCntr) (some body) = wholeRecord s.nextCntr body := by
    rw [record, recordKey_eq (nextCntr_lt s), wholeRecord]
  have hlen : (wholeRecord s.nextCntr body).length = (keyText s.nextCntr).length + body.length + 1 := by
    simp only [wholeRecord, List.length_append, List.length_singleton]
  have hroom := key_room s
  by_cases hfit : body.length < bufferSize - (keyText s.nextCntr).length - 2
  · obtain ⟨buf, hclose, hholds, -⟩ := closeRecord_fits (holds_key s buffer) hroom hmax ',' short hfit
    rw [bblogPrint_passed hclose hholds.left, bblog, hrecord, if_neg (by omega)]
    rfl
  · rw [bblogPrint_refused (closeRecord_long hroom hmax hfit), bblog, hrecord, if_pos (by omega)]

end Bblog

end Bblog

/-! ## `blog` -/

namespace Blog

open Bblog (Process)

/-- `blog`: whether the line goes to the log, and the variables. -/
def blogPrint (e : Process) (v : Print) (s : State) : Bool × State :=
  match initBuffer e s with
  | (none, s) => (false, s)
  | (some size, s) =>
    match closeRecord noBatchBufferSize '\x7d' size v s.buffer with
    | (buffer, none) => (false, { s with buffer := buffer })
    | (buffer, some _) =>
      (true, { s with buffer := buffer, log := s.log ++ [cstr noBatchBufferSize buffer] })

/-- The room that `vsnprintf` has behind the prefix; none if there is no prefix. -/
def roomFor (e : Process) (s : State) : Nat :=
  match (initBuffer e s).1 with
  | none => 0
  | some size => noBatchBufferSize - size - 2

/-- A body goes to the log behind a complete prefix and before the brace, with a NUL inside the buffer; and what could
not be written whole is refused. -/
inductive PassedOrRefused (e : Process) (v : Print) (s : State) : Prop
  | passed (n : Nat) (body : List Char) (short : body.length < 2 ^ 31) :
      v = .text body short → v.Untruncated (roomFor e s) →
      (blogPrint e v s).1 = true → Holds (blogPrint e v s).2.buffer 0 (entry (prefixText e n) body ++ [nul]) →
      (entry (prefixText e n) body).length < noBatchBufferSize →
      (blogPrint e v s).2.log = s.log ++ [cstr noBatchBufferSize (blogPrint e v s).2.buffer] → PassedOrRefused e v s
  | refused : ¬ v.Untruncated (roomFor e s) →
      (blogPrint e v s).1 = false → (blogPrint e v s).2.log = s.log → PassedOrRefused e v s

/-- The failure of `vsnprintf`, if any, shows in the size. -/
def SoundIn (e : Process) (s : State) (v : Print) : Prop := ∀ size ∈ (initBuffer e s).1, v.Sound size

/-- Between two calls the process has not made its prefix, or the thread's buffer begins with it. -/
inductive Prepared (e : Process) (s : State) : Prop
  | fresh : s.threadPid ≠ e.pid → s.procid ≠ e.pid → Prepared e s
  | between (n : Nat) : Between e (prefixText e n) s → (prefixText e n).length < maxPrefixLen → Prepared e s

/-- A process that has not logged: a new one, or a child after a fork. -/
def New (e : Process) (s : State) : Prop := s.threadPid ≠ e.pid ∧ s.procid ≠ e.pid

/-- The states of one process with one thread that calls of `blog` reach. -/
def Reached (e : Process) : State → Prop := Reach (fun s v => some (blogPrint e v s).2) (SoundIn e) (New e)

section Blog

variable {e : Process} {v : Print} {s : State}

/-- `init_buffer` fails, and the prefix is still to be made; or it leaves a complete prefix in the buffer, and returns its
length. -/
theorem Prepared.initBuffer (h : Prepared e s) :
    (∃ s', initBuffer e s = (none, s') ∧ s'.log = s.log ∧ Prepared e s') ∨
    ∃ n s', initBuffer e s = (some (prefixText e n).length, s') ∧ s'.log = s.log ∧ Between e (prefixText e n) s' ∧
      (prefixText e n).length < maxPrefixLen := by
  cases h with
  | between n hb hshort =>
    refine Or.inr ⟨n, s, ?_, rfl, hb, hshort⟩
    rw [Blog.initBuffer, if_pos hb.threadPid, hb.len]
  | fresh hthread hproc =>
    by_cases hlen : (prefixText e ((s.cntr + 1) % 2 ^ 64)).length ≥ maxPrefixLen
    · refine Or.inl ⟨_, by simp only [Blog.initBuffer, hthread, hproc, hlen, ↓reduceIte]; rfl, ?_, ?_⟩
      · rfl
      · exact .fresh hthread hproc
    · refine Or.inr ⟨(s.cntr + 1) % 2 ^ 64, _, by
        simp only [Blog.initBuffer, hthread, hproc, hlen, ↓reduceIte]
        rfl, ?_, ?_, Nat.lt_of_not_ge hlen⟩
      · rfl
      · refine ⟨prefixText_nulFree e _, rfl, rfl, ?_⟩
        simp only [fits_eq (Nat.lt_of_not_ge hlen)]
        exact (holds_blit _ _ _).left

/-- A prefix leaves room. -/
theorem prefix_room {n : Nat} (h : (prefixText e n).length < maxPrefixLen) :
    (prefixText e n).length + 2 < noBatchBufferSize := by
  rw [maxPrefixLen_eq] at h
  rw [noBatchBufferSize_eq]
  omega

/-- **`blog` passes a line on whole or refuses it exactly when the failure of `vsnprintf`, if any, shows in the size.** -/
theorem Prepared.blog_passed_or_refused_iff (h : Prepared e s) : PassedOrRefused e v s ↔ SoundIn e s v := by
  have hmax : noBatchBufferSize < 2 ^ 31 := by decide
  rcases h.initBuffer with ⟨s', hinit, hlog, -⟩ | ⟨n, s', hinit, hlog, hb, hshort⟩
  · -- there is no prefix, and nothing is printed
    have hroom : ¬ v.Untruncated (roomFor e s) := by
      rw [roomFor, hinit]
      cases v with
      | text body short => exact Nat.not_lt_zero _
      | error written code valid => exact not_false
    refine ⟨fun _ size hsize => ?_, fun _ => .refused hroom ?_ ?_⟩
    · rw [hinit] at hsize
      cases hsize
    · simp only [blogPrint, hinit]
    · simp only [blogPrint, hinit, hlog]
  · have hroom := prefix_room hshort
    have hfor : roomFor e s = noBatchBufferSize - (prefixText e n).length - 2 := by rw [roomFor, hinit]
    have hsound : SoundIn e s v ↔ v.Sound (prefixText e n).length := by simp [SoundIn, hinit]
    have hrefused : (closeRecord noBatchBufferSize '\x7d' (prefixText e n).length v s'.buffer).2 = none →
        (blogPrint e v s).1 = false ∧ (blogPrint e v s).2.log = s.log := fun hnone => by
      obtain ⟨buf, hclose⟩ : ∃ buf, closeRecord noBatchBufferSize '\x7d' (prefixText e n).length v s'.buffer = (buf, none) :=
        ⟨_, Prod.ext rfl hnone⟩
      simp only [blogPrint, hinit, hclose, hlog, and_self]
    rw [hsound]
    constructor
    · rintro (⟨_, body, short, rfl, -⟩ | ⟨-, hret, -⟩)
      · trivial
      · cases v with
        | text body short => trivial
        | error written code valid =>
          by_contra hnot
          obtain ⟨buf, size, hclose⟩ := closeRecord_garbled hroom hmax '\x7d' s'.buffer written valid hnot
          simp only [blogPrint, hinit, hclose] at hret
          cases hret
    · intro hv
      cases v with
      | text body short =>
        by_cases hfit : body.length < noBatchBufferSize - (prefixText e n).length - 2
        · obtain ⟨buf, hclose, hholds, hlen⟩ := closeRecord_fits hb.holds hroom hmax '\x7d' short hfit
          refine .passed n body short rfl (by rw [hfor]; exact hfit) ?_ ?_ hlen ?_
          all_goals simp only [blogPrint, hinit, hclose, hlog]
          exact hholds
        · obtain ⟨hret, hsame⟩ := hrefused (closeRecord_long hroom hmax hfit)
          exact .refused (by rw [hfor]; exact hfit) hret hsame
      | error written code valid =>
        obtain ⟨hret, hsame⟩ := hrefused (closeRecord_refused hroom hmax hv)
        exact .refused not_false hret hsame

/-- A call in which the failure of `vsnprintf` shows in the size keeps the prefix. -/
theorem Prepared.blogPrint (h : Prepared e s) (hv : SoundIn e s v) : Prepared e (blogPrint e v s).2 := by
  have hmax : noBatchBufferSize < 2 ^ 31 := by decide
  rcases h.initBuffer with ⟨s', hinit, -, hs'⟩ | ⟨n, s', hinit, -, hb, hshort⟩
  · simp only [Blog.blogPrint, hinit]
    exact hs'
  · have hkeep := closeRecord_keeps hb.holds (prefix_room hshort) hmax '\x7d' (hv _ (by rw [hinit]; rfl))
    simp only [Blog.blogPrint, hinit]
    split
    all_goals
      rename_i buf _ hclose
      rw [hclose] at hkeep
      exact .between n ⟨hb.nulFree, hb.threadPid, hb.len, hkeep⟩ hshort

/-- On a body that is printed this is the `blog` of one thread. -/
theorem Prepared.blogPrint_text (h : Prepared e s) (body : List Char) (short : body.length < 2 ^ 31) :
    Blog.blogPrint e (.text body short) s = blog e body s := by
  have hmax : noBatchBufferSize < 2 ^ 31 := by decide
  rcases h.initBuffer with ⟨s', hinit, -, -⟩ | ⟨n, s', hinit, -, -, hshort⟩
  · simp only [Blog.blogPrint, blog, hinit]
  · have hroom := prefix_room hshort
    have hlimit : ¬ noBatchBufferSize - (prefixText e n).length - 2 = 0 := by omega
    have hbrace : ∀ (buf : Bytes) off, strcpy buf off "\x7d".toList = blit (blit buf off ['\x7d']) (off + 1) [nul] :=
      fun buf off => blit_append buf off ['\x7d'] [nul]
    simp only [Blog.blogPrint, blog, hinit, closeRecord, limit_eq hroom hmax, Print.ret, size_text hroom hmax short,
      Print.write, hlimit, ↓reduceIte]
    split_ifs
    · rfl
    · rw [hbrace]

theorem Reached.prepared (h : Reached e s) : Prepared e s := by
  refine Reach.inv (fun s hs => .fresh hs.1 hs.2) ?_ h
  intro s v s' hs hv hstep
  cases hstep
  exact hs.blogPrint hv

end Blog

end Blog

/-! ## Both loggers -/

/-- **Only whole records enter the log, unless a failure of `vsnprintf` is made up for by the size.** For every outcome of
`vsnprintf`: in every state, whatever its counter, `bblog` passes the body to `_blog` as a whole record or refuses what
could not be written whole, exactly when the result of a failure exceeds the length of the key; and so does `blog`, with
the length of its prefix, in every state that its calls reach. -/
theorem passed_or_refused_iff (v : Print) :
    (∀ A e turns buffer s, Bblog.PassedOrRefused A e turns v buffer s ↔ v.Sound (Bblog.keyText s.nextCntr).length) ∧
      ∀ e s, Blog.Reached e s → (Blog.PassedOrRefused e v s ↔ Blog.SoundIn e s v) :=
  ⟨fun _ _ _ _ _ => Bblog.bblog_passed_or_refused_iff, fun _ _ hs => hs.prepared.blog_passed_or_refused_iff⟩

/-- A body that is printed, by both. -/
theorem printed_passed :
    Bblog.PassedOrRefused Bblog.twoPages Bblog.app 2 (.text ['x'] (by decide)) (fun _ => nul) Bblog.appStarted ∧
      Blog.PassedOrRefused Bblog.app (.text ['x'] (by decide)) (.init 0 fun _ => nul) :=
  have h := passed_or_refused_iff (.text ['x'] (by decide))
  ⟨(h.1 _ _ _ _ _).mpr trivial, (h.2 _ _ (.init ⟨by decide, by decide⟩)).mpr fun _ _ => trivial⟩

/-- **A failure with the result `-1` is accepted**: the comma stands on the colon of the key, and nothing else follows. -/
theorem failed_print_accepted :
    (∃ size ∈ (Bblog.buildRecord 1 (.error [] 0 (by decide)) fun _ => nul).2,
      (List.range size).map (Bblog.buildRecord 1 (.error [] 0 (by decide)) fun _ => nul).1 = "\"REC_1\",".toList) ∧
    ¬ Bblog.PassedOrRefused Bblog.twoPages Bblog.app 2 (.error [] 0 (by decide)) (fun _ => nul) Bblog.appStarted :=
  ⟨⟨8, by decide, by decide⟩, fun h => absurd (Bblog.bblog_passed_or_refused_iff.mp h) (by decide)⟩

end Cosmost
