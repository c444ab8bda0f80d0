import Cosmost.Bblog.Word

/-!
# The account of one buffer

`Role` is what a thread is to the buffers, and `Ledger` what the roles of all threads and the globals of the process add
up to for the buffer at one address: whether it is allocated, whether `proc_pibr` points to it, its word, the bytes of
the records taken, the reservations that threads hold and, among them, the bytes of those that did not fit, and the
threads that flush it, make it or close it.

`Ledger.Step` is the life of a buffer, from `create` to `destroy`. `Ledger.Ok` ties the word to the account: as long as no
thread closes the buffer, the index in its word is the prefix, the records taken and the doomed reservations, and its
reference count is the number of reservations held. Every step of that life keeps it (`Ledger.Ok.step`).
-/

namespace Cosmost.Bblog

/-- What a thread is to the buffers. -/
inductive Role
  | outside
  /-- It has a reservation on the buffer at `a`, of which it will take `doomed` bytes back. -/
  | holder (a doomed : Nat)
  /-- It flushes the buffer, and the word is still there. -/
  | flusher (a : Nat)
  /-- It has allocated the buffer for itself. -/
  | maker (a : Nat)
  /-- It has taken the word away, and closes, writes and frees the buffer. -/
  | closer (a : Nat)
  deriving DecidableEq

section Measures

variable (a : Nat)

def Role.holders : Role → Nat
  | .holder b _ => if b = a then 1 else 0
  | _ => 0

def Role.doomed : Role → Nat
  | .holder b n => if b = a then n else 0
  | _ => 0

def Role.flushers : Role → Nat
  | .flusher b => if b = a then 1 else 0
  | _ => 0

def Role.makers : Role → Nat
  | .maker b => if b = a then 1 else 0
  | _ => 0

def Role.closers : Role → Nat
  | .closer b => if b = a then 1 else 0
  | _ => 0

end Measures

/-- The account of the buffer at one address. -/
structure Ledger where
  /-- How often it is among the live blocks. -/
  live : Nat
  /-- `1` if `proc_pibr` points to it. -/
  current : Nat
  word : BitVec 64
  /-- The bytes of the records taken. -/
  stored : Nat
  holders : Nat
  doomed : Nat
  flushers : Nat
  makers : Nat
  closers : Nat

/-- The word tells the account. `n` is the length of the prefix. -/
structure Ledger.Ok (pid n a : Nat) (l : Ledger) : Prop where
  page : 0 < l.live → Page a
  /-- At most one of `proc_pibr` and the threads is in charge of a live buffer, and none of a free one. -/
  one : l.current + l.flushers + l.makers + l.closers ≤ l.live
  once : l.live ≤ 1
  held : 0 < l.holders → 0 < l.live ∧ l.makers = 0 ∧ l.closers = 0
  word : 0 < l.live → l.closers = 0 → l.word.toNat = fields pid (n + l.stored + l.doomed) a l.holders
  closed : 0 < l.closers → l.word = 0
  room : 0 < l.live → n + l.stored < loggerEntryMaxPayload - 32
  few : l.holders < 2 ^ 12
  short : l.doomed ≤ bufferSize * l.holders

/-- The life of a buffer. -/
inductive Ledger.Step (pid n a : Nat) : Ledger → Ledger → Prop
  | stay (l : Ledger) : Step pid n a l l
  /-- A reservation that fits. -/
  | take {l : Ledger} {size : Nat} : size < bufferSize → 0 < l.live → l.makers = 0 → l.closers = 0 →
      l.holders + 1 < 2 ^ 12 → pibrPid l.word = pid → pibrIdx l.word + size < loggerEntryMaxPayload - 32 →
      Step pid n a l ⟨l.live, l.current, l.word + packBuffer 0 0 size 1, l.stored + size, l.holders + 1, l.doomed,
        l.flushers, l.makers, l.closers⟩
  /-- A reservation that does not fit. -/
  | miss {l : Ledger} {size : Nat} : size < bufferSize → 0 < l.live → l.makers = 0 → l.closers = 0 →
      l.holders + 1 < 2 ^ 12 →
      Step pid n a l ⟨l.live, l.current, l.word + packBuffer 0 0 size 1, l.stored, l.holders + 1, l.doomed + size,
        l.flushers, l.makers, l.closers⟩
  /-- A reservation is given back, with the bytes that did not fit. -/
  | drop {l : Ledger} {size : Nat} : 0 < l.holders → size ≤ l.doomed → size < bufferSize →
      Step pid n a l ⟨l.live, l.current, l.word - packBuffer 0 0 size 1, l.stored, l.holders - 1, l.doomed - size,
        l.flushers, l.makers, l.closers⟩
  | create {l : Ledger} : l.live = 0 → Page a →
      Step pid n a l ⟨1, l.current, packBuffer a pid n 0, 0, l.holders, l.doomed, l.flushers, l.makers + 1, l.closers⟩
  | install {l : Ledger} : 0 < l.makers →
      Step pid n a l ⟨l.live, 1, l.word, l.stored, l.holders, l.doomed, l.flushers, l.makers - 1, l.closers⟩
  /-- `proc_pibr` becomes null. -/
  | clear (l : Ledger) : Step pid n a l ⟨l.live, 0, l.word, l.stored, l.holders, l.doomed, l.flushers, l.makers, l.closers⟩
  /-- A thread begins to flush the buffer. -/
  | retire {l : Ledger} : 0 < l.live → l.flushers = 0 → l.makers = 0 → l.closers = 0 →
      Step pid n a l ⟨l.live, 0, l.word, l.stored, l.holders, l.doomed, l.flushers + 1, l.makers, l.closers⟩
  /-- It finds nothing to flush. -/
  | abandon {l : Ledger} : 0 < l.flushers →
      Step pid n a l ⟨l.live, l.current, l.word, l.stored, l.holders, l.doomed, l.flushers - 1, l.makers, l.closers⟩
  | detach {l : Ledger} : 0 < l.flushers → l.holders = 0 →
      Step pid n a l ⟨l.live, l.current, 0, l.stored, l.holders, l.doomed, l.flushers - 1, l.makers, l.closers + 1⟩
  | discard {l : Ledger} : 0 < l.makers →
      Step pid n a l ⟨l.live - 1, l.current, l.word, l.stored, l.holders, l.doomed, l.flushers, l.makers - 1, l.closers⟩
  | destroy {l : Ledger} : 0 < l.closers →
      Step pid n a l ⟨l.live - 1, l.current, l.word, l.stored, l.holders, l.doomed, l.flushers, l.makers, l.closers - 1⟩

/-! ## Reservations on a word -/

section Word

variable {x : BitVec 64} {pid idx a refs size : Nat} (hx : x.toNat = fields pid idx a refs) (hsize : size < bufferSize)
include hx hsize

theorem add_incr (hpid : pid ≤ pidMax) (hidx : idx < 2 ^ 26) (ha : Page a) (href : refs < 2 ^ 12) :
    (x + packBuffer 0 0 size 1).toNat = fields pid (idx + size) a (refs + 1) := by
  obtain ⟨-, hpage, -⟩ := ha
  rw [bufferSize_eq] at hsize
  rw [pidMax_eq] at hpid
  rw [BitVec.toNat_add, incr_toNat (by omega), hx, fields, fields]
  omega

theorem sub_incr (hidx : size ≤ idx) (href : 0 < refs) :
    (x - packBuffer 0 0 size 1).toNat = fields pid (idx - size) a (refs - 1) := by
  have hlt := x.isLt
  rw [bufferSize_eq] at hsize
  rw [fields] at hx ⊢
  rw [BitVec.toNat_sub, incr_toNat (by omega)]
  omega

end Word

/-! ## The word along the life of a buffer -/

namespace Ledger

variable {pid n a : Nat} {l l' : Ledger}

/-- The word tells what is taken and reserved, and the records taken leave room for the end. -/
structure Filling (pid n a : Nat) (l : Ledger) : Prop where
  word : l.word.toNat = fields pid (n + l.stored + l.doomed) a l.holders
  room : n + l.stored < loggerEntryMaxPayload - 32

section Filling

variable (h : l.Filling pid n a) (hfew : l.holders < 2 ^ 12) (hshort : l.doomed ≤ bufferSize * l.holders)

include hfew hshort in
/-- An index is far from the end of the word, even where it has left its field. -/
theorem index_lt (hroom : n + l.stored < loggerEntryMaxPayload - 32) : n + l.stored + l.doomed < 2 ^ 26 := by
  rw [loggerEntryMaxPayload_eq] at hroom
  rw [bufferSize_eq] at hshort
  omega

include h hfew in
/-- What a fitting reservation finds in the word. -/
theorem Filling.fitting (hpage : Page a) (hpid : pibrPid l.word = pid) :
    pibrIdx l.word = n + l.stored + l.doomed := by
  have hcarry := pibrPid_of h.word hpage hfew
  rw [pibrIdx_of h.word hpage hfew]
  omega

include h hfew hshort in
/-- A word without holders has the records taken before its index. -/
theorem Filling.cas_eq {idx : Nat} (hpid : pid ≤ pidMax) (hpage : Page a) (hidx : idx < 2 ^ 16)
    (hw : l.word = packBuffer a pid idx 0) : l.holders = 0 ∧ idx = n + l.stored := by
  have hword := h.word
  rw [hw, packBuffer_toNat hpid (Or.inl hpage) hidx (show 0 < 2 ^ 12 by decide), fields, fields] at hword
  have hheld : l.holders = 0 := by omega
  rw [hheld, Nat.mul_zero] at hshort
  omega

section Reservations

variable {size : Nat} (hsize : size < bufferSize)

include h hfew hshort hsize in
/-- A reservation that fits. -/
theorem Filling.take (hpid : pid ≤ pidMax) (hpage : Page a) (hown : pibrPid l.word = pid)
    (hfit : pibrIdx l.word + size < loggerEntryMaxPayload - 32) :
    Filling pid n a ⟨l.live, l.current, l.word + packBuffer 0 0 size 1, l.stored + size, l.holders + 1, l.doomed,
      l.flushers, l.makers, l.closers⟩ where
  word := by
    rw [add_incr h.word hsize hpid (index_lt hfew hshort h.room) hpage hfew,
      show n + l.stored + l.doomed + size = n + (l.stored + size) + l.doomed by omega]
  room := by
    rw [h.fitting hfew hpage hown] at hfit
    simp only
    omega

include h hfew hshort hsize in
/-- A reservation that does not fit. -/
theorem Filling.miss (hpid : pid ≤ pidMax) (hpage : Page a) :
    Filling pid n a ⟨l.live, l.current, l.word + packBuffer 0 0 size 1, l.stored, l.holders + 1, l.doomed + size,
      l.flushers, l.makers, l.closers⟩ where
  word := by rw [add_incr h.word hsize hpid (index_lt hfew hshort h.room) hpage hfew, Nat.add_assoc]
  room := h.room

include h hsize in
/-- A reservation is given back. -/
theorem Filling.drop (hheld : 0 < l.holders) (hle : size ≤ l.doomed) :
    Filling pid n a ⟨l.live, l.current, l.word - packBuffer 0 0 size 1, l.stored, l.holders - 1, l.doomed - size,
      l.flushers, l.makers, l.closers⟩ where
  word := by
    rw [sub_incr h.word hsize (by omega) hheld,
      show n + l.stored + l.doomed - size = n + l.stored + (l.doomed - size) by omega]
  room := h.room

end Reservations

end Filling

theorem Ok.filling (h : l.Ok pid n a) (hlive : 0 < l.live) (hclosers : l.closers = 0) : l.Filling pid n a :=
  ⟨h.word hlive hclosers, h.room hlive⟩

/-- The account of an address that is nobody's. -/
theorem Ok.nobody (w : BitVec 64) : Ok pid n a ⟨0, 0, w, 0, 0, 0, 0, 0, 0⟩ where
  page h := absurd h (Nat.lt_irrefl 0)
  one := Nat.le_refl 0
  once := Nat.zero_le 1
  held h := absurd h (Nat.lt_irrefl 0)
  word h := absurd h (Nat.lt_irrefl 0)
  closed h := absurd h (Nat.lt_irrefl 0)
  room h := absurd h (Nat.lt_irrefl 0)
  few := by simp
  short := by simp

/-- A buffer that is not allocated has nothing to do with anyone. -/
theorem Ok.of_free (h : l.Ok pid n a) (hlive : l.live = 0) :
    l.current = 0 ∧ l.flushers = 0 ∧ l.makers = 0 ∧ l.closers = 0 ∧ l.holders = 0 ∧ l.doomed = 0 := by
  have hone := h.one
  have hshort := h.short
  have hheld : l.holders = 0 := by
    by_contra hpos
    have := (h.held (by omega)).1
    omega
  rw [hheld] at hshort
  omega

/-- What a fitting reservation finds in the word. -/
theorem Ok.fitting (h : l.Ok pid n a) (hlive : 0 < l.live) (hclosers : l.closers = 0) (hpid : pibrPid l.word = pid) :
    pibrIdx l.word = n + l.stored + l.doomed :=
  (h.filling hlive hclosers).fitting h.few (h.page hlive) hpid

section Step

variable (h : l.Ok pid n a)
include h

theorem Ok.take (hpid : pid ≤ pidMax) {size : Nat} (hsize : size < bufferSize) (hlive : 0 < l.live)
    (hmakers : l.makers = 0) (hclosers : l.closers = 0) (hfew : l.holders + 1 < 2 ^ 12) (hown : pibrPid l.word = pid)
    (hfit : pibrIdx l.word + size < loggerEntryMaxPayload - 32) :
    Ok pid n a ⟨l.live, l.current, l.word + packBuffer 0 0 size 1, l.stored + size, l.holders + 1, l.doomed,
      l.flushers, l.makers, l.closers⟩ where
  page := h.page
  one := h.one
  once := h.once
  held _ := ⟨hlive, hmakers, hclosers⟩
  word _ _ := ((h.filling hlive hclosers).take h.few h.short hsize hpid (h.page hlive) hown hfit).word
  closed hpos := absurd hpos (by simp only [hclosers]; omega)
  room _ := ((h.filling hlive hclosers).take h.few h.short hsize hpid (h.page hlive) hown hfit).room
  few := hfew
  short := by
    have := h.short
    simp only [Nat.mul_add]
    omega

theorem Ok.miss (hpid : pid ≤ pidMax) {size : Nat} (hsize : size < bufferSize) (hlive : 0 < l.live)
    (hmakers : l.makers = 0) (hclosers : l.closers = 0) (hfew : l.holders + 1 < 2 ^ 12) :
    Ok pid n a ⟨l.live, l.current, l.word + packBuffer 0 0 size 1, l.stored, l.holders + 1, l.doomed + size,
      l.flushers, l.makers, l.closers⟩ where
  page := h.page
  one := h.one
  once := h.once
  held _ := ⟨hlive, hmakers, hclosers⟩
  word _ _ := ((h.filling hlive hclosers).miss h.few h.short hsize hpid (h.page hlive)).word
  closed hpos := absurd hpos (by simp only [hclosers]; omega)
  room := h.room
  few := hfew
  short := by
    have := h.short
    simp only [Nat.mul_add]
    omega

theorem Ok.drop {size : Nat} (hheld : 0 < l.holders) (hle : size ≤ l.doomed) (hsize : size < bufferSize)
    (hshort : l.doomed - size ≤ bufferSize * (l.holders - 1)) :
    Ok pid n a ⟨l.live, l.current, l.word - packBuffer 0 0 size 1, l.stored, l.holders - 1, l.doomed - size,
      l.flushers, l.makers, l.closers⟩ where
  page := h.page
  one := h.one
  once := h.once
  held _ := h.held hheld
  word hlive hclosers := ((h.filling hlive hclosers).drop hsize hheld hle).word
  closed hpos := absurd hpos (by rw [(h.held hheld).2.2]; omega)
  room := h.room
  few := by
    have := h.few
    simp only
    omega
  short := hshort

theorem Ok.create (hpid : pid ≤ pidMax) (hn : n < maxPrefixLen) (hfree : l.live = 0) (hpage : Page a) :
    Ok pid n a ⟨1, l.current, packBuffer a pid n 0, 0, l.holders, l.doomed, l.flushers, l.makers + 1, l.closers⟩ := by
  obtain ⟨hcurrent, hflushers, hmakers, hclosers, hholders, hdoomed⟩ := h.of_free hfree
  rw [maxPrefixLen_eq] at hn
  rw [hcurrent, hflushers, hmakers, hclosers, hholders, hdoomed]
  exact {
    page := fun _ => hpage
    one := by simp
    once := Nat.le_refl 1
    held := fun hpos => absurd hpos (Nat.lt_irrefl 0)
    word := fun _ _ => packBuffer_toNat hpid (Or.inl hpage) (by omega) (by omega)
    closed := fun hpos => absurd hpos (Nat.lt_irrefl 0)
    room := fun _ => by rw [loggerEntryMaxPayload_eq]; simp only; omega
    few := by simp
    short := by simp }

theorem Ok.detach (hflushers : 0 < l.flushers) (hheld : l.holders = 0) :
    Ok pid n a ⟨l.live, l.current, 0, l.stored, l.holders, l.doomed, l.flushers - 1, l.makers, l.closers + 1⟩ where
  page := h.page
  one := by
    have := h.one
    simp only
    omega
  once := h.once
  held hpos := absurd hpos (by simp only [hheld]; omega)
  word _ hclosers := absurd hclosers (by simp)
  closed _ := rfl
  room := h.room
  few := h.few
  short := h.short

end Step

/-- **Every step in the life of a buffer keeps the word true.** That no thread dooms more than the size of a record
is known of the threads. -/
theorem Ok.step (h : l.Ok pid n a) (hpid : pid ≤ pidMax) (hn : n < maxPrefixLen) (hs : Step pid n a l l')
    (hshort : l'.doomed ≤ bufferSize * l'.holders) : l'.Ok pid n a := by
  have hone := h.one
  have honce := h.once
  cases hs with
  | stay => exact h
  | take hsize hlive hmakers hclosers hfew hown hfit => exact h.take hpid hsize hlive hmakers hclosers hfew hown hfit
  | miss hsize hlive hmakers hclosers hfew => exact h.miss hpid hsize hlive hmakers hclosers hfew
  | drop hheld hle hsize => exact h.drop hheld hle hsize hshort
  | create hfree hpage => exact h.create hpid hn hfree hpage
  | detach hflushers hheld => exact h.detach hflushers hheld
  | install hmakers =>
    exact ⟨h.page, by simp only; omega, h.once, fun hpos => absurd (h.held hpos).2.1 (by omega), h.word, h.closed,
      h.room, h.few, h.short⟩
  | clear => exact ⟨h.page, by simp only; omega, h.once, h.held, h.word, h.closed, h.room, h.few, h.short⟩
  | retire hlive hflushers hmakers hclosers =>
    exact ⟨h.page, by simp only; omega, h.once, h.held, h.word, h.closed, h.room, h.few, h.short⟩
  | abandon hflushers =>
    exact ⟨h.page, by simp only; omega, h.once, h.held, h.word, h.closed, h.room, h.few, h.short⟩
  | discard hmakers =>
    refine ⟨fun hpos => h.page ?_, by simp only; omega, by simp only; omega,
      fun hpos => absurd (h.held hpos).2.1 (by omega), fun hpos => h.word ?_, h.closed, fun hpos => h.room ?_, h.few,
      h.short⟩ <;> (simp only at hpos; omega)
  | destroy hclosers =>
    refine ⟨fun hpos => h.page ?_, by simp only; omega, by simp only; omega,
      fun hpos => absurd (h.held hpos).2.2 (by omega), fun hpos => absurd hpos ?_, fun hpos => h.closed hclosers,
      fun hpos => h.room ?_, h.few, h.short⟩ <;> (simp only at *; omega)

/-- A buffer that is not being closed was not being closed before, unless it is new. -/
theorem Ok.filling_before (h : l.Ok pid n a) (hs : Step pid n a l l') (hlive : 0 < l'.live)
    (hclosers : l'.closers = 0) : l.live = 0 ∨ 0 < l.live ∧ l.closers = 0 := by
  have hone := h.one
  have honce := h.once
  cases hs with
  | stay => omega
  | _ => simp only at hlive hclosers; omega

/-- A live buffer that nobody has just made stays so. -/
theorem Step.makers_eq_zero (hs : Step pid n a l l') (hlive : 0 < l.live) (hmakers : l.makers = 0) : l'.makers = 0 := by
  cases hs with
  | create hfree => omega
  | install hpos => omega
  | discard hpos => omega
  | _ => exact hmakers

end Ledger

end Cosmost.Bblog
