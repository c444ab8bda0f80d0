import Mathlib.Algebra.Group.Nat.Defs
import Cosmost.Lib.Run

/-!
# Adding entries to a tracer (`tracer.h`)

`_active` packs the end of the active buffer and the pointer to its next free slot. `addEntry` advances the pointer with
`fetch_add`; the thread that finds it at the end exchanges the word for one of a new buffer and enqueues the old one.
A step of a thread here is one atomic operation with what the thread does on its own, or a call that can fail; so
`list_add_tail` is one step, as is `memcpy`.
-/

namespace Cosmost.Tracer

open Cosmost.Lib

/-- `Tracer<T, size>`: `sizeof(T)`, and the records of a buffer, whose bytes a 32-bit address space has room for. -/
structure Layout where
  width : Nat
  size : Nat
  width_pos : 0 < width
  fits : width * size < 2 ^ 32

/-- `max`, in bytes. -/
def Layout.max (L : Layout) : Nat := L.width * L.size

/-- A slot of the buffer at `b`. -/
def Layout.slot (L : Layout) (b i : Nat) : Nat := b + L.width * i

/-- The bytes of a `T`. -/
abbrev Record (L : Layout) := Fin L.width → UInt8

/-- `TB_CURR_PTR_MASK`. -/
def tbCurrPtrMask : Nat := 0xffffffff

/-- `TB_MAX_PTR_SHIFT` and `TBH_HEAD_SHIFT`. -/
def tbShift : Nat := 32

/-- An addition of 32-bit unsigned integers. -/
def add32 (a b : Nat) : Nat := (a + b) % 2 ^ 32

/-- A subtraction. -/
def sub32 (a b : Nat) : Nat := (a + (2 ^ 32 - b)) % 2 ^ 32

/-- The word that `init_trace_buffer` makes of the address of a buffer. -/
def Layout.traceBuf (L : Layout) (ptr : Nat) : Nat := add32 ptr L.max <<< tbShift ||| ptr

/-- The word that `init_trace_head` makes of the address of a list head. -/
def traceHead (head : Nat) : Nat := head <<< tbShift

/-- The tracer and the memory it uses. After `bufs`, the buffers that were allocated, nothing is part of the program:
the records of the calls so far, the slots that `fetch_add` handed out, the calls whose record was copied, with the
slot, and those that ended with an exception; the buffers that `exchange` took out of `_active`, those that were counted
in `_head`, and those that no node was allocated for or that found no list head. -/
structure Shared (L : Layout) where
  active : Nat
  head : Nat
  ts : Nat
  mem : Nat → UInt8
  queue : List Nat
  bufs : List Nat
  calls : List (Record L)
  given : List Nat
  copied : List (Nat × Nat)
  thrown : List Nat
  replaced : List Nat
  counted : List Nat
  dropped : List Nat
  ignored : List Nat

/-- Where a thread stands in `addEntry`, in its call of a number. -/
inductive Pc
  /-- Outside. -/
  | idle
  /-- Before the `fetch_add` of `_active`. -/
  | fetch (call : Nat)
  /-- Before `init_trace_buffer`. -/
  | init (call cptr : Nat)
  /-- Before the `exchange`. -/
  | exchange (call cptr newbuf : Nat)
  /-- Before the `malloc` in `enqueueTraceBuffer`. -/
  | node (call buffer : Nat)
  /-- Before the `fetch_add` of `_head`. -/
  | count (call buffer : Nat)
  /-- Before `list_add_tail`. -/
  | link (call buffer head : Nat)
  /-- Before the `memcpy`. -/
  | copy (call cptr : Nat)
  deriving DecidableEq, Repr

/-- A step of a thread: the call of `addEntry` at a second, the return or the failure of `new`, that of `malloc`, or any
other. -/
inductive Move (L : Layout)
  | enter (rec : Record L) (sec : Nat)
  | new (ptr : Option Nat)
  | malloc (ok : Bool)
  | run

section Step

variable {L : Layout}

/-- Bytes that `new` can return: a buffer apart from the others. -/
def Shared.Fresh (g : Shared L) (a : Nat) : Prop :=
  0 < a ∧ a + L.max < 2 ^ 32 ∧ a ∉ g.bufs ∧ ∀ b ∈ g.bufs, a + L.max ≤ b ∨ b + L.max ≤ a

instance (g : Shared L) (a : Nat) : Decidable (g.Fresh a) := inferInstanceAs (Decidable (_ ∧ _ ∧ _ ∧ _))

/-- `alloc_trace_buffer`: the new buffer is zeroed. -/
def Shared.allocTraceBuffer (g : Shared L) (a : Nat) : Shared L :=
  { g with bufs := g.bufs ++ [a], mem := fun x => if a ≤ x ∧ x < a + L.max then 0 else g.mem x }

/-- The `memcpy` of the record of a call. -/
def Shared.memcpy (g : Shared L) (cptr : Nat) (rec : Record L) : Shared L :=
  { g with mem := fun x => if h : cptr ≤ x ∧ x - cptr < L.width then rec ⟨x - cptr, h.2⟩ else g.mem x }

/-- The next step in `addEntry`. -/
def Shared.addEntry (g : Shared L) : Pc → Move L → Option (Shared L × Pc)
  | .idle, .enter rec sec => some ({ g with ts := sec, calls := g.calls ++ [rec] }, .fetch g.calls.length)
  | .fetch call, .run =>
    let buf := g.active
    let g' := { g with active := (g.active + L.width) % 2 ^ 64 }
    let cptr := buf &&& tbCurrPtrMask
    let mptr := buf >>> tbShift
    if cptr = mptr then some (g', .init call cptr)
    else if cptr < mptr then some ({ g' with given := g.given ++ [cptr] }, .copy call cptr)
    else some (g', .fetch call)
  | .init call _, .new none => some ({ g with thrown := g.thrown ++ [call] }, .idle)
  | .init call cptr, .new (some ptr) =>
    if g.Fresh ptr then some (g.allocTraceBuffer ptr, .exchange call cptr (L.traceBuf ptr)) else none
  | .exchange call cptr newbuf, .run =>
    let buf := g.active
    some ({ g with active := newbuf, replaced := g.replaced ++ [sub32 (buf >>> tbShift) L.max] },
      .node call (sub32 cptr L.max))
  | .node call buffer, .malloc ok =>
    if ok then some (g, .count call buffer) else some ({ g with dropped := g.dropped ++ [buffer] }, .fetch call)
  | .count call buffer, .run =>
    let tbh := g.head
    some ({ g with head := (g.head + 1) % 2 ^ 64, counted := g.counted ++ [buffer] },
      .link call buffer (tbh >>> tbShift))
  | .link call buffer head, .run =>
    if head = 0 then some ({ g with ignored := g.ignored ++ [buffer] }, .fetch call)
    else some ({ g with queue := g.queue ++ [buffer] }, .fetch call)
  | .copy call cptr, .run =>
    match g.calls[call]? with
    | some rec => some ({ g.memcpy cptr rec with copied := g.copied ++ [(call, cptr)] }, .idle)
    | none => none
  | _, _ => none

/-- A tracer as its constructor leaves it. -/
def Shared.tracer (buf head : Nat) (ts : Nat) (mem : Nat → UInt8) : Shared L where
  active := L.traceBuf buf
  head := traceHead head
  ts := ts
  mem := mem
  queue := []
  bufs := [buf]
  calls := []
  given := []
  copied := []
  thrown := []
  replaced := []
  counted := []
  dropped := []
  ignored := []

/-- The tracer and its threads. -/
structure Conf (τ : Type*) (L : Layout) where
  g : Shared L
  pc : τ → Pc

variable {τ : Type*} [DecidableEq τ]

/-- The next step of a thread. -/
def Conf.step (c : Conf τ L) (e : τ × Move L) : Option (Conf τ L) :=
  (c.g.addEntry (c.pc e.1) e.2).map fun s => ⟨s.1, Function.update c.pc e.1 s.2⟩

/-- A tracer that was just constructed, and no thread in `addEntry`. -/
def Conf.Started (c : Conf τ L) : Prop :=
  (∀ t, c.pc t = .idle) ∧ ∃ buf head ts mem, (0 < buf ∧ buf + L.max < 2 ^ 32) ∧ (0 < head ∧ head < 2 ^ 32) ∧
    c.g = .tracer buf head ts mem

/-- The next step of the thread is the `fetch_add` of `_active`. -/
def Pc.fetches : Pc → Bool
  | .fetch _ => true
  | _ => false

/-- If the step is the `fetch_add`, then the low half of `_active` does not pass `2 ^ 32 - 1`. -/
def Conf.Room (c : Conf τ L) (e : τ × Move L) : Prop :=
  (c.pc e.1).fetches = true → (c.g.active &&& tbCurrPtrMask) + L.width < 2 ^ 32

instance (c : Conf τ L) (e : τ × Move L) : Decidable (c.Room e) := inferInstanceAs (Decidable (_ → _))

end Step

end Cosmost.Tracer
