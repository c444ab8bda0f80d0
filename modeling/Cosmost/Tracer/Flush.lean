import Cosmost.Tracer.Slots
import Mathlib.Data.Fintype.Basic

/-!
# The flush thread of a tracer (`tracer.h`)

In each pass `run` replaces the active buffer, if no entry was added for a while and there is something in it, and then
takes the list of the enqueued buffers, flushes them and frees them. It replaces the buffer when more than half of it is
free, not when it is in use (`replaces_iff`), and enqueues the pointer that it peeked, less the length of a whole buffer:
the base address only of a buffer that is full (`handed_iff`).

`flush_hands_over`: as long as the passes replace nothing, and no buffer is lost to a failed allocation or to a list head
that is gone, every buffer is active, enqueued once, or in the hands of one thread. `empty_buffer_enqueued` is a
pass that finds an empty buffer.
-/

namespace Cosmost.Tracer

open Cosmost.Lib

/-! ## The flush thread -/

/-- `FLUSH_TIMEOUT`, in seconds. -/
def flushTimeout : Nat := 150

/-- Where the flush thread stands in a pass of `run`. -/
inductive Stage
  /-- Before the test of the interruption. -/
  | test
  /-- In the `sleep`. -/
  | sleep
  /-- Before the `fetch_add` that peeks into `_active`. -/
  | peek
  /-- Before `init_trace_buffer`. -/
  | init (cptr : Nat)
  /-- Before the `exchange` of `_active`. -/
  | exchange (cptr newbuf : Nat)
  /-- In `enqueueTraceBuffer`. -/
  | enqueue (q : Pc)
  /-- Before the `fetch_add` that peeks into `_head`. -/
  | header
  /-- Before the second test of the interruption. -/
  | swap
  /-- Before `init_trace_head`. -/
  | renew
  /-- Before the `exchange` of `_head`. -/
  | detach (newTbh : Nat)
  /-- Before the next node of a list. -/
  | walk (head : Nat)
  /-- Before `free(head)`. -/
  | free (head : Nat)
  /-- The thread has ended. -/
  | ended
  deriving DecidableEq

/-- A tracer with its flush thread. The last two fields are not part of it: for each buffer that `run` replaced, its base
address and the address that was enqueued, and how many of the slots of the buffer that it had peeked into were in use. -/
structure Pass (τ : Type*) (L : Layout) where
  g : Shared L
  pc : τ → Pc
  stage : Stage
  interrupted : Bool
  /-- The list heads that are allocated, and for each the buffers of the nodes that `run` has not come to. -/
  heads : List Nat
  lists : Nat → List Nat
  handed : List (Nat × Nat)
  used : List Nat

/-- What happens. -/
inductive Event (τ : Type*) (L : Layout)
  /-- A step of a thread in `addEntry`. -/
  | add (t : τ) (move : Move L)
  /-- `interrupt()`. -/
  | interrupt
  /-- The flush thread has slept, and the clock stands at a second. -/
  | wake (sec : Nat)
  /-- The return or the failure of `new` in the flush thread. -/
  | new (ptr : Option Nat)
  /-- That of `malloc` for a node. -/
  | malloc (ok : Bool)
  /-- That of `malloc` for a list head. -/
  | head (ptr : Option Nat)
  /-- Any other step of the flush thread. -/
  | run

section Step

variable {τ : Type*} {L : Layout}

/-- The slots that are in use of the buffer of a word. -/
def Layout.inUse (L : Layout) (buf : Nat) : Nat :=
  Nat.min L.size (sub32 (buf &&& tbCurrPtrMask) (sub32 (buf >>> tbShift) L.max) / L.width)

/-- The test of `run` for enough floating records. -/
def Layout.Replaces (L : Layout) (buf : Nat) : Prop := sub32 (buf >>> tbShift) (buf &&& tbCurrPtrMask) > L.max / 2

instance (L : Layout) (buf : Nat) : Decidable (L.Replaces buf) := inferInstanceAs (Decidable (_ > _))

/-- What a step at this point does to the lists: `list_add_tail`, or nothing. -/
def Pc.linked (lists : Nat → List Nat) : Pc → Nat → List Nat
  | .link _ buffer head => if head = 0 then lists else Function.update lists head (lists head ++ [buffer])
  | _ => lists

/-- The stage after a step of `enqueueTraceBuffer`. -/
def Stage.enqueued : Pc → Stage
  | .fetch _ => .header
  | q => .enqueue q

/-- A step of the flush thread in `enqueueTraceBuffer`, which is the same as in `addEntry`. -/
def Pass.enqueue (c : Pass τ L) (q : Pc) (move : Move L) : Option (Pass τ L) :=
  (c.g.addEntry q move).map fun s => { c with g := s.1, lists := q.linked c.lists, stage := .enqueued s.2 }

/-- The next step of the flush thread that depends on nothing else. -/
def Pass.run (c : Pass τ L) : Option (Pass τ L) :=
  match c.stage with
  | .test => some { c with stage := if c.interrupted then .ended else .sleep }
  | .peek =>
    let buf := c.g.active
    if L.Replaces buf then some { c with stage := .init (buf &&& tbCurrPtrMask), used := c.used ++ [L.inUse buf] }
    else some { c with stage := .header }
  | .exchange cptr newbuf =>
    let buf := c.g.active
    let base := sub32 (buf >>> tbShift) L.max
    some { c with
      g := { c.g with active := newbuf, replaced := c.g.replaced ++ [base] }
      stage := .enqueue (.node 0 (sub32 cptr L.max)), handed := c.handed ++ [(base, sub32 cptr L.max)] }
  | .enqueue q => c.enqueue q .run
  | .header => some { c with stage := if c.g.head &&& tbCurrPtrMask = 0 then .test else .swap }
  | .swap => some { c with stage := if c.interrupted then .detach 0 else .renew }
  | .detach newTbh =>
    some { c with g := { c.g with head := newTbh, counted := [] }, stage := .walk (c.g.head >>> tbShift) }
  | .walk head =>
    match c.lists head with
    | [] => some { c with stage := .free head }
    -- `flush` and `free_trace_buffer`
    | buffer :: rest =>
      some { c with g := { c.g with bufs := c.g.bufs.erase buffer }, lists := Function.update c.lists head rest }
  | .free head => some { c with heads := c.heads.erase head, stage := .test }
  | .sleep | .init _ | .renew | .ended => none

variable [DecidableEq τ]

/-- The next state. -/
def Pass.step (c : Pass τ L) : Event τ L → Option (Pass τ L)
  | .add t move =>
    (c.g.addEntry (c.pc t) move).map fun s =>
      { c with g := s.1, pc := Function.update c.pc t s.2, lists := (c.pc t).linked c.lists }
  | .interrupt => some { c with interrupted := true }
  | .wake sec =>
    match c.stage with
    | .sleep => some { c with stage := if (sec + (2 ^ 64 - c.g.ts)) % 2 ^ 64 > flushTimeout then .peek else .header }
    | _ => none
  | .new ptr =>
    match c.stage, ptr with
    | .init _, none => some { c with stage := .ended }
    | .init cptr, some a =>
      if c.g.Fresh a then some { c with g := c.g.allocTraceBuffer a, stage := .exchange cptr (L.traceBuf a) } else none
    | _, _ => none
  | .malloc ok =>
    match c.stage with
    | .enqueue q => c.enqueue q (.malloc ok)
    | _ => none
  | .head ptr =>
    match c.stage, ptr with
    | .renew, none => some { c with stage := .ended }
    | .renew, some a =>
      if (0 < a ∧ a < 2 ^ 32) ∧ a ∉ c.heads then
        some { c with heads := c.heads ++ [a], lists := Function.update c.lists a [], stage := .detach (traceHead a) }
      else none
    | _, _ => none
  | .run => c.run

/-- A tracer that was just constructed, no thread in `addEntry`, and the flush thread at its beginning. -/
def Pass.Started (c : Pass τ L) : Prop :=
  (∀ t, c.pc t = .idle) ∧ ∃ buf head ts mem, (0 < buf ∧ buf + L.max < 2 ^ 32) ∧ (0 < head ∧ head < 2 ^ 32) ∧
    c.g = .tracer buf head ts mem ∧ c.stage = .test ∧ c.heads = [head] ∧ c.lists head = [] ∧ c.handed = [] ∧ c.used = []

end Step

/-! ## Handing over -/

section Right

variable {τ : Type*} {L : Layout}

/-- The buffer that a thread has, which is not active and not enqueued. -/
def Pc.held (L : Layout) : Pc → Option Nat
  | .exchange _ _ newbuf => some (sub32 (newbuf >>> tbShift) L.max)
  | .node _ buffer | .count _ buffer | .link _ buffer _ => some buffer
  | _ => none

/-- That of the flush thread. -/
def Stage.held (L : Layout) : Stage → Option Nat
  | .exchange _ newbuf => some (sub32 (newbuf >>> tbShift) L.max)
  | .enqueue q => q.held L
  | _ => none

/-- The base address of the active buffer. -/
def Pass.base (c : Pass τ L) : Nat := sub32 (c.g.active >>> tbShift) L.max

/-- What the passes hand over: the buffer that they detach, no buffer twice, and none is left. -/
structure Pass.Right (c : Pass τ L) : Prop where
  /-- `run` enqueues the buffer that it has replaced. -/
  handed : ∀ p ∈ c.handed, p.2 = p.1
  /-- It replaces a buffer of which at least half of the slots are in use. -/
  half : ∀ n ∈ c.used, L.size ≤ 2 * n
  /-- An enqueued buffer is in one list, once, is not active, and was not freed. -/
  once : ∀ h ∈ c.heads, (c.lists h).Nodup
  apart : ∀ h ∈ c.heads, ∀ h' ∈ c.heads, ∀ b ∈ c.lists h, b ∈ c.lists h' → h = h'
  allocated : ∀ h ∈ c.heads, ∀ b ∈ c.lists h, b ∈ c.g.bufs ∧ b ≠ c.base
  /-- Every buffer is active, enqueued, or in the hands of a thread. -/
  placed : ∀ b ∈ c.g.bufs, b = c.base ∨ (∃ h ∈ c.heads, b ∈ c.lists h) ∨ (∃ t, (c.pc t).held L = some b) ∨
    c.stage.held L = some b

/-- The step of a thread loses no buffer: the pointer of `_active` does not overflow, there is memory for a node, and
there is a list head. -/
def Pass.Keeps (c : Pass τ L) : Pc → Move L → Prop
  | .fetch _, _ => (c.g.active &&& tbCurrPtrMask) + L.width < 2 ^ 32
  | .node _ _, .malloc ok => ok = true
  | .count _ _, _ => c.g.head >>> tbShift ≠ 0
  | _, _ => True

/-- The thread is about to link a node to a list. -/
def Pc.LinksTo (head : Nat) : Pc → Prop
  | .link _ _ tbh => tbh = head
  | _ => False

/-- The flush thread replaces nothing: the pointer that it peeks is not past the end, and at least half of the slots are in
use. And no thread is about to link a node to a list when its end is reached. -/
def Pass.SoundAt (c : Pass τ L) : Stage → Prop
  | .peek =>
    c.g.active &&& tbCurrPtrMask ≤ c.g.active >>> tbShift ∧
      2 * (c.g.active >>> tbShift - (c.g.active &&& tbCurrPtrMask)) ≤ L.max
  | .walk head => c.lists head = [] → ∀ t, ¬ (c.pc t).LinksTo head
  | _ => True

/-- No buffer is replaced too early, and none is lost. -/
def Pass.Sound (c : Pass τ L) : Event τ L → Prop
  | .add t move => c.Keeps (c.pc t) move
  | .run => c.SoundAt c.stage
  | _ => True

instance (c : Pass τ L) : ∀ q move, Decidable (c.Keeps q move)
  | .fetch _, _ => inferInstanceAs (Decidable (_ < _))
  | .node _ _, .malloc ok => inferInstanceAs (Decidable (ok = true))
  | .count _ _, _ => inferInstanceAs (Decidable (_ ≠ _))
  | .idle, _ | .init _ _, _ | .exchange _ _ _, _ | .link _ _ _, _ | .copy _ _, _ => isTrue trivial
  | .node _ _, .enter _ _ | .node _ _, .new _ | .node _ _, .run => isTrue trivial

instance (head : Nat) : ∀ q, Decidable (Pc.LinksTo head q)
  | .link _ _ tbh => inferInstanceAs (Decidable (tbh = head))
  | .idle | .fetch _ | .init _ _ | .exchange _ _ _ | .node _ _ | .count _ _ | .copy _ _ => isFalse not_false

instance [Fintype τ] (c : Pass τ L) : ∀ stage, Decidable (c.SoundAt stage)
  | .peek => inferInstanceAs (Decidable (_ ∧ _))
  | .walk _ => inferInstanceAs (Decidable (_ = _ → ∀ _, ¬ _))
  | .test | .sleep | .init _ | .exchange _ _ | .enqueue _ | .header | .swap | .renew | .detach _ | .free _ | .ended =>
    isTrue trivial

instance [Fintype τ] (c : Pass τ L) : ∀ e, Decidable (c.Sound e)
  | .add t move => inferInstanceAs (Decidable (c.Keeps (c.pc t) move))
  | .run => inferInstanceAs (Decidable (c.SoundAt c.stage))
  | .interrupt | .wake _ | .new _ | .malloc _ | .head _ => isTrue trivial

end Right

/-! ## When `run` replaces a buffer -/

section Replaces

variable {L : Layout} {b k : Nat}

/-- A word whose pointer is not past the end. -/
theorem Layout.replaces_iff_lt {buf : Nat} (h : buf &&& tbCurrPtrMask ≤ buf >>> tbShift) (hbuf : buf < 2 ^ 64) :
    L.Replaces buf ↔ L.max < 2 * (buf >>> tbShift - (buf &&& tbCurrPtrMask)) := by
  rw [Layout.Replaces, sub32]
  rw [shift_eq] at h ⊢
  omega

/-- **`run` replaces the active buffer exactly if less than half of its slots are in use.** -/
theorem Layout.replaces_iff (hb : b + L.max < 2 ^ 32) (hk : k ≤ L.size) : L.Replaces (L.word b k) ↔ 2 * k < L.size := by
  have hw := L.width_pos
  have hend : L.slot b k ≤ b + L.max := L.slot_le_iff.mpr hk
  have hlow : L.slot b k < 2 ^ 32 := Nat.lt_of_le_of_lt hend hb
  rw [Layout.replaces_iff_lt (by rw [L.word_low hlow, L.word_high hlow]; exact hend) (L.word_lt hb hlow),
    L.word_low hlow, L.word_high hlow]
  have hfree : 2 * (b + L.max - L.slot b k) = L.width * (2 * (L.size - k)) := by
    rw [Layout.max, Layout.slot, Nat.add_sub_add_left, ← Nat.mul_sub, Nat.mul_left_comm]
  rw [hfree, Layout.max, Nat.mul_lt_mul_left hw]
  omega

/-- The slots up to the pointer are in use. -/
theorem Layout.inUse_word (hb : b + L.max < 2 ^ 32) (hk : k ≤ L.size) : L.inUse (L.word b k) = k := by
  have hw := L.width_pos
  have hmul : L.width * k ≤ L.max := Nat.mul_le_mul_left L.width hk
  have hlow : L.slot b k < 2 ^ 32 := Nat.lt_of_le_of_lt (L.slot_le_iff.mpr hk) hb
  rw [Layout.inUse, L.word_low hlow, L.word_base hb hlow, Layout.slot, Nat.add_comm, sub32_add (by omega),
    Nat.mul_div_cancel_left k hw]
  exact Nat.min_eq_right hk

/-- **And then it enqueues the address of another place than the buffer**, which is right for a full buffer only. -/
theorem Layout.handed_iff (hb : b + L.max < 2 ^ 32) (hk : k ≤ L.size) : sub32 (L.slot b k) L.max = b ↔ k = L.size := by
  have hw := L.width_pos
  rw [sub32]
  constructor
  · intro h
    by_contra hne
    have hlt := L.slot_lt (b := b) (Nat.lt_of_le_of_ne hk hne)
    have hle : b ≤ L.slot b k := Nat.le_add_right _ _
    rw [Layout.slot_size] at hlt
    omega
  · rintro rfl
    rw [Layout.slot_size]
    omega

end Replaces

/-! ## Lists -/

/-- No buffer is in the lists twice, and the active one is in none. -/
structure Lists (heads : List Nat) (lists : Nat → List Nat) (base : Nat) : Prop where
  once : ∀ h ∈ heads, (lists h).Nodup
  apart : ∀ h ∈ heads, ∀ h' ∈ heads, ∀ b ∈ lists h, b ∈ lists h' → h = h'
  spare : ∀ h ∈ heads, base ∉ lists h

section Lists

variable {heads : List Nat} {lists : Nat → List Nat} {base head x : Nat} {rest : List Nat}

/-- What is in a list after `list_add_tail`. -/
theorem mem_add_tail {l b : Nat} :
    b ∈ Function.update lists head (lists head ++ [x]) l ↔ b ∈ lists l ∨ l = head ∧ b = x := by
  by_cases hl : l = head
  · rw [hl, Function.update_self, List.mem_append, List.mem_singleton]
    simp
  · rw [Function.update_of_ne hl]
    simp [hl]

theorem exists_mem_add_tail {b : Nat} (hhead : head ∈ heads) :
    (∃ l ∈ heads, b ∈ Function.update lists head (lists head ++ [x]) l) ↔ (∃ l ∈ heads, b ∈ lists l) ∨ b = x := by
  simp only [mem_add_tail]
  constructor
  · rintro ⟨l, hl, hb | ⟨-, hb⟩⟩
    · exact Or.inl ⟨l, hl, hb⟩
    · exact Or.inr hb
  · rintro (⟨l, hl, hb⟩ | hb)
    · exact ⟨l, hl, Or.inl hb⟩
    · exact ⟨head, hhead, Or.inr ⟨rfl, hb⟩⟩

theorem Lists.add_tail (h : Lists heads lists base) (hhead : head ∈ heads) (hx : ∀ l ∈ heads, x ∉ lists l) (hbase : x ≠ base) :
    Lists heads (Function.update lists head (lists head ++ [x])) base where
  once := fun l hl => by
    by_cases hlh : l = head
    · rw [hlh, Function.update_self]
      exact (h.once head hhead).append (List.nodup_singleton x) (by simpa using hx head hhead)
    · rw [Function.update_of_ne hlh]
      exact h.once l hl
  apart := fun l hl l' hl' b hb hb' => by
    rcases mem_add_tail.mp hb with hb | ⟨hlh, hbx⟩ <;> rcases mem_add_tail.mp hb' with hb' | ⟨hlh', hbx'⟩
    · exact h.apart l hl l' hl' b hb hb'
    · exact absurd (hbx' ▸ hb) (hx l hl)
    · exact absurd (hbx ▸ hb') (hx l' hl')
    · exact hlh.trans hlh'.symm
  spare := fun l hl hb => by
    rcases mem_add_tail.mp hb with hb | ⟨-, hb⟩
    · exact h.spare l hl hb
    · exact hbase hb.symm

/-- What is in a list after its first node was passed. -/
theorem Lists.mem_tail (h : Lists heads lists base) (hhead : head ∈ heads) (hlist : lists head = x :: rest) {l b : Nat}
    (hl : l ∈ heads) : b ∈ Function.update lists head rest l ↔ b ∈ lists l ∧ b ≠ x := by
  have hx : x ∈ lists head := by
    rw [hlist]
    exact List.mem_cons_self
  by_cases hlh : l = head
  · have hnodup := h.once head hhead
    rw [hlist, List.nodup_cons] at hnodup
    rw [hlh, Function.update_self, hlist, List.mem_cons]
    constructor
    · intro hb
      refine ⟨Or.inr hb, ?_⟩
      rintro rfl
      exact hnodup.1 hb
    · rintro ⟨hb, hne⟩
      exact hb.resolve_left hne
  · rw [Function.update_of_ne hlh]
    refine ⟨fun hb => ⟨hb, ?_⟩, fun hb => hb.1⟩
    rintro rfl
    exact hlh (h.apart l hl head hhead b hb hx)

theorem Lists.exists_mem_tail (h : Lists heads lists base) (hhead : head ∈ heads) (hlist : lists head = x :: rest) {b : Nat} :
    (∃ l ∈ heads, b ∈ Function.update lists head rest l) ↔ (∃ l ∈ heads, b ∈ lists l) ∧ b ≠ x := by
  constructor
  · rintro ⟨l, hl, hb⟩
    obtain ⟨hb, hbx⟩ := (h.mem_tail hhead hlist hl).mp hb
    exact ⟨⟨l, hl, hb⟩, hbx⟩
  · rintro ⟨⟨l, hl, hb⟩, hbx⟩
    exact ⟨l, hl, (h.mem_tail hhead hlist hl).mpr ⟨hb, hbx⟩⟩

theorem Lists.tail (h : Lists heads lists base) (hhead : head ∈ heads) (hlist : lists head = x :: rest) :
    Lists heads (Function.update lists head rest) base where
  once := fun l hl => by
    by_cases hlh : l = head
    · have hnodup := h.once head hhead
      rw [hlist, List.nodup_cons] at hnodup
      rw [hlh, Function.update_self]
      exact hnodup.2
    · rw [Function.update_of_ne hlh]
      exact h.once l hl
  apart := fun l hl l' hl' b hb hb' =>
    h.apart l hl l' hl' b ((h.mem_tail hhead hlist hl).mp hb).1 ((h.mem_tail hhead hlist hl').mp hb').1
  spare := fun l hl hb => h.spare l hl ((h.mem_tail hhead hlist hl).mp hb).1

/-- What is in the lists after there is a new one. -/
theorem mem_new {l b : Nat} (hhead : head ∉ heads) :
    l ∈ heads ++ [head] ∧ b ∈ Function.update lists head [] l ↔ l ∈ heads ∧ b ∈ lists l := by
  rw [List.mem_append, List.mem_singleton]
  by_cases hl : l = head
  · rw [hl, Function.update_self]
    simp [hhead]
  · rw [Function.update_of_ne hl]
    simp [hl]

theorem Lists.new (h : Lists heads lists base) (hhead : head ∉ heads) :
    Lists (heads ++ [head]) (Function.update lists head []) base where
  once := fun l hl => by
    by_cases hlh : l = head
    · rw [hlh, Function.update_self]
      exact List.nodup_nil
    · rw [Function.update_of_ne hlh]
      exact h.once l ((List.mem_append.mp hl).resolve_right (by simpa using hlh))
  apart := fun l hl l' hl' b hb hb' => by
    obtain ⟨hl, hb⟩ := (mem_new hhead).mp ⟨hl, hb⟩
    obtain ⟨hl', hb'⟩ := (mem_new hhead).mp ⟨hl', hb'⟩
    exact h.apart l hl l' hl' b hb hb'
  spare := fun l hl hb => by
    obtain ⟨hl, hb⟩ := (mem_new hhead).mp ⟨hl, hb⟩
    exact h.spare l hl hb

/-- A list head is freed. -/
theorem Lists.erase (h : Lists heads lists base) (head : Nat) : Lists (heads.erase head) lists base where
  once := fun l hl => h.once l (List.mem_of_mem_erase hl)
  apart := fun l hl l' hl' => h.apart l (List.mem_of_mem_erase hl) l' (List.mem_of_mem_erase hl')
  spare := fun l hl => h.spare l (List.mem_of_mem_erase hl)

end Lists

/-! ## The invariant -/

variable {L : Layout}

/-- What a thread knows of the active buffer at `base`, whose pointer was advanced `k` times, and of its list head: that is the
current one, or that of the list that is walked. -/
def Pc.Knows (L : Layout) (heads : List Nat) (stage : Stage) (base k cur : Nat) : Pc → Prop
  | .init _ cptr => cptr = base + L.max ∧ L.size < k
  | .exchange _ cptr newbuf => cptr = base + L.max ∧ L.size < k ∧ ∃ a, a + L.max < 2 ^ 32 ∧ newbuf = L.word a 0
  | .link _ _ tbh => tbh ∈ heads ∧ (tbh = cur ∨ stage = .walk tbh)
  | _ => True

/-- What the flush thread knows of the list heads. -/
def Pass.Knows {τ : Type*} (c : Pass τ L) (cur : Nat) : Prop :=
  match c.stage with
  | .test | .ended => True
  | .sleep | .peek | .header | .swap | .renew => cur ≠ 0
  | .detach newTbh =>
    cur ≠ 0 ∧ (newTbh = 0 ∧ c.interrupted = true ∨ ∃ a ∈ c.heads, newTbh = traceHead a ∧ a ≠ cur ∧ c.lists a = [])
  | .walk head => head ∈ c.heads ∧ head ≠ cur
  | .free head => head ∈ c.heads ∧ head ≠ cur ∧ c.lists head = []
  | .init _ | .exchange _ _ | .enqueue _ => False

/-- The active buffer is at `base`, its pointer was advanced `k` times, and `cur` is the current list head, or `0` after an
interruption. -/
structure Pass.Inv {τ : Type*} (c : Pass τ L) (base k cur : Nat) : Prop where
  active : c.g.active = L.word base k
  low : L.slot base k < 2 ^ 32
  bufs : Buffers L c.g.bufs [] base
  distinct : c.g.bufs.Nodup
  header : c.g.head = cur * 2 ^ 32 + c.g.counted.length
  counted : c.g.counted.Nodup
  tallied : ∀ b ∈ c.g.counted, b ∈ c.lists cur ∨ ∃ t call, c.pc t = .link call b cur
  current : cur ∈ c.heads ∨ cur = 0 ∧ c.g.counted = [] ∧ c.interrupted = true
  heads : c.heads.Nodup
  headed : ∀ h ∈ c.heads, 0 < h ∧ h < 2 ^ 32
  lists : Lists c.heads c.lists base
  items : Carried (Pc.held L) c.pc (· ∈ c.g.bufs) fun b => b = base ∨ ∃ h ∈ c.heads, b ∈ c.lists h
  sole : Sole Pc.replaces c.pc
  knows : ∀ t, (c.pc t).Knows L c.heads c.stage base k cur
  stage : c.Knows cur
  handed : c.handed = []
  used : c.used = []

section Inv

variable {τ : Type*} {c : Pass τ L} {t : τ} {q : Pc} {heads heads' : List Nat} {stage stage' : Stage}
  {base base' k k' cur cur' call cptr : Nat}

/-- More was asked for. -/
theorem Pc.Knows.mono (h : q.Knows L heads stage base k cur) (hk : k ≤ k') : q.Knows L heads stage base k' cur := by
  cases q with
  | init call cptr => exact ⟨h.1, h.2.trans_le hk⟩
  | exchange call cptr newbuf => exact ⟨h.1, h.2.1.trans_le hk, h.2.2⟩
  | link call buffer tbh => exact h
  | _ => trivial

/-- A thread that replaces nothing knows nothing of the buffers. -/
theorem Pc.Knows.of_none (h : q.Knows L heads stage base k cur) (hq : q.replaces = none) :
    q.Knows L heads stage base' k' cur := by
  cases q with
  | init call cptr => cases hq
  | exchange call cptr newbuf => cases hq
  | link call buffer tbh => exact h
  | _ => trivial

/-- The list heads or the stage have changed, but the lists that a thread may link to are still there. -/
theorem Pc.Knows.of_link (h : q.Knows L heads stage base k cur)
    (hlink : ∀ tbh, q.LinksTo tbh → tbh ∈ heads → tbh = cur ∨ stage = .walk tbh →
      tbh ∈ heads' ∧ (tbh = cur' ∨ stage' = .walk tbh)) : q.Knows L heads' stage' base k cur' := by
  cases q with
  | link call buffer tbh => exact hlink tbh rfl h.1 h.2
  | init call cptr => exact h
  | exchange call cptr newbuf => exact h
  | _ => trivial

/-- What is counted in `_head` is enqueued in its list, or a thread is about to link it. -/
theorem Pass.Inv.counted_held (h : c.Inv base k cur) (hcur : cur ∈ c.heads) {b : Nat} (hb : b ∈ c.g.counted) :
    b ∈ c.g.bufs ∧ ∀ t, (c.pc t).held L = some b → ∃ call, c.pc t = .link call b cur := by
  rcases h.tallied b hb with hl | ⟨u, call, hu⟩
  · have hsettled : b = base ∨ ∃ h ∈ c.heads, b ∈ c.lists h := Or.inr ⟨cur, hcur, hl⟩
    exact ⟨h.items.given_of b hsettled, fun t ht => absurd hsettled (h.items.carried t b ht).2⟩
  · have hheld : (c.pc u).held L = some b := by rw [hu]; rfl
    refine ⟨(h.items.carried u b hheld).1, fun t ht => ?_⟩
    rw [h.items.sole t u b ht hheld]
    exact ⟨call, hu⟩

/-- The list head in `_head`. -/
theorem Pass.Inv.head_shift (h : c.Inv base k cur) (hcur : cur ∈ c.heads) : c.g.head >>> tbShift = cur := by
  have hlen := h.bufs.length_lt h.counted fun b hb => (h.counted_held hcur hb).1
  rw [shift_eq, h.header]
  omega

/-- Nodes are added to the current list and to the one that is walked. -/
theorem Pass.Knows.of_lists {lists : Nat → List Nat} (h : c.Knows cur)
    (hlists : ∀ l, l ≠ cur → c.stage ≠ .walk l → lists l = c.lists l) : Pass.Knows { c with lists := lists } cur := by
  simp only [Pass.Knows] at h ⊢
  cases hs : c.stage with
  | detach newTbh =>
    rw [hs] at h
    refine ⟨h.1, h.2.imp_right ?_⟩
    rintro ⟨a, ha, htbh, hne, hnil⟩
    exact ⟨a, ha, htbh, hne, (hlists a hne (by simp [hs])).trans hnil⟩
  | free head =>
    rw [hs] at h
    exact ⟨h.1, h.2.1, (hlists head h.2.1 (by simp [hs])).trans h.2.2⟩
  | _ =>
    rw [hs] at h
    exact h

variable [DecidableEq τ]

theorem Pc.knows_update {pc : τ → Pc} (hq : q.Knows L heads stage base k cur)
    (h : ∀ u, u ≠ t → (pc u).Knows L heads stage base k cur) :
    ∀ u, (Function.update pc t q u).Knows L heads stage base k cur :=
  (Function.forall_update_iff pc fun _ p => p.Knows L heads stage base k cur).mpr ⟨hq, h⟩

/-- A thread that is not about to link a node goes on. -/
theorem Pass.Inv.tallied_update (h : c.Inv base k cur) (hlink : ∀ call b tbh, c.pc t ≠ .link call b tbh) :
    ∀ b ∈ c.g.counted, b ∈ c.lists cur ∨ ∃ u call, Function.update c.pc t q u = .link call b cur := by
  intro b hb
  rcases h.tallied b hb with hl | ⟨u, call, hu⟩
  · exact Or.inl hl
  · have hut : u ≠ t := by
      rintro rfl
      exact hlink _ _ _ hu
    exact Or.inr ⟨u, call, by rw [Function.update_of_ne hut, hu]⟩

/-- **A step that moves no buffer**: of the shared variables only the pointer of `_active` is advanced, and of the threads one
goes on with what it has. -/
theorem Pass.Inv.move (h : c.Inv base k cur) {g' : Shared L} (hk : k ≤ k') (hactive : g'.active = L.word base k')
    (hlow : L.slot base k' < 2 ^ 32) (hhead : g'.head = c.g.head) (hbufs : g'.bufs = c.g.bufs)
    (hcounted : g'.counted = c.g.counted) (hlink : ∀ call b tbh, c.pc t ≠ .link call b tbh)
    (hheld : q.held L = (c.pc t).held L) (hsole : Sole Pc.replaces (Function.update c.pc t q))
    (hq : q.Knows L c.heads c.stage base k' cur) :
    Pass.Inv { c with g := g', pc := Function.update c.pc t q } base k' cur :=
  { h with
    active := hactive
    low := hlow
    bufs := by simpa only [hbufs] using h.bufs
    distinct := by simpa only [hbufs] using h.distinct
    header := by simpa only [hhead, hcounted] using h.header
    counted := by simpa only [hcounted] using h.counted
    tallied := by simpa only [hcounted] using h.tallied_update hlink
    current := by simpa only [hcounted] using h.current
    items := by simpa only [hbufs] using h.items.keep hheld
    sole := hsole
    knows := Pc.knows_update hq fun u _ => (h.knows u).mono hk }

/-- One that leaves `_active` alone, too. -/
theorem Pass.Inv.keep (h : c.Inv base k cur) {g' : Shared L} (hactive : g'.active = c.g.active) (hhead : g'.head = c.g.head)
    (hbufs : g'.bufs = c.g.bufs) (hcounted : g'.counted = c.g.counted) (hlink : ∀ call b tbh, c.pc t ≠ .link call b tbh)
    (hheld : q.held L = (c.pc t).held L) (hnone : q.replaces = none) (hq : q.Knows L c.heads c.stage base k cur) :
    Pass.Inv { c with g := g', pc := Function.update c.pc t q } base k cur :=
  h.move le_rfl (hactive.trans h.active) h.low hhead hbufs hcounted hlink hheld (h.sole.keep (by simp [hnone])) hq

/-- The end of the buffer is handed out once. -/
theorem Pc.Knows.seen {x : Unit} (h : q.Knows L heads stage base k cur) (hq : q.replaces = some x) : L.size < k := by
  cases q with
  | init call cptr => exact h.2
  | exchange call cptr newbuf => exact h.2.1
  | _ => cases hq

/-- The `fetch_add`. -/
theorem Pass.Inv.fetch (h : c.Inv base k cur) (hroom : L.slot base k + L.width < 2 ^ 32) (hpc : c.pc t = .fetch call)
    {s : Shared L × Pc} (hs : c.g.addEntry (.fetch call) .run = some s) :
    Pass.Inv { c with g := s.1, pc := Function.update c.pc t s.2 } base (k + 1) cur := by
  have hactive : (c.g.active + L.width) % 2 ^ 64 = L.word base (k + 1) := by
    rw [h.active]
    exact L.word_add (h.bufs.fits base h.bufs.active.1).2 hroom
  have hlow : L.slot base (k + 1) < 2 ^ 32 := by
    rw [Layout.slot_succ]
    exact hroom
  have hnone : ∀ {q : Pc}, q.replaces = none → Sole Pc.replaces (Function.update c.pc t q) := fun hq =>
    h.sole.keep fun x hx => by
      rw [hq] at hx
      cases hx
  rcases Shared.fetch_cases h.active h.low hs with ⟨hk, rfl⟩ | ⟨hk, rfl⟩ | ⟨hk, rfl⟩
  · -- no other thread has seen the end
    refine h.move (Nat.le_succ k) hactive hlow rfl rfl rfl (by simp [hpc]) (by rw [hpc]; rfl) ?_
      ⟨rfl, by omega⟩
    refine h.sole.update fun x _ u _ hu => ?_
    exact absurd ((h.knows u).seen hu) (by omega)
  · exact h.move (Nat.le_succ k) hactive hlow rfl rfl rfl (by simp [hpc]) (by rw [hpc]; rfl) (hnone rfl) trivial
  · exact h.move (Nat.le_succ k) hactive hlow rfl rfl rfl (by simp [hpc]) (by rw [hpc]) (hnone rfl) trivial

/-- There is a new buffer. -/
theorem Pass.Inv.alloc (h : c.Inv base k cur) (hpc : c.pc t = .init call cptr) {a : Nat} (ha : c.g.Fresh a) :
    Pass.Inv { c with
      g := c.g.allocTraceBuffer a, pc := Function.update c.pc t (.exchange call cptr (L.traceBuf a)) } base k cur :=
  { h with
    bufs := h.bufs.alloc ha
    distinct := h.distinct.append (List.nodup_singleton a) (by simpa using ha.2.2.1)
    tallied := h.tallied_update (by simp [hpc])
    items := by
      refine h.items.take (by rw [hpc]; rfl) ?_ ha.2.2.1 fun x => by
        rw [Shared.allocTraceBuffer, List.mem_append, List.mem_singleton]
      have hlow : L.slot a 0 < 2 ^ 32 := by
        have := ha.2.1
        rw [Layout.slot_zero]
        omega
      rw [Pc.held, L.traceBuf_eq ha.2.1, L.word_base ha.2.1 hlow]
    sole := h.sole.keep fun _ _ => by rw [hpc]; rfl
    knows := by
      have hknows := h.knows t
      rw [hpc] at hknows
      exact Pc.knows_update ⟨hknows.1, hknows.2, a, ha.2.1, L.traceBuf_eq ha.2.1⟩ fun u _ => h.knows u }

/-- **The exchange**: the new buffer is active, and the thread has the old one. -/
theorem Pass.Inv.exchange (h : c.Inv base k cur) {newbuf : Nat} (hpc : c.pc t = .exchange call cptr newbuf) :
    ∃ a, Pass.Inv { c with
      g := { c.g with active := newbuf, replaced := c.g.replaced ++ [sub32 (c.g.active >>> tbShift) L.max] }
      pc := Function.update c.pc t (.node call (sub32 cptr L.max)) } a 0 cur := by
  have hknows := h.knows t
  rw [hpc] at hknows
  obtain ⟨rfl, hsize, a, hfits', rfl⟩ := hknows
  have hfits := (h.bufs.fits base h.bufs.active.1).2
  have hlow : L.slot a 0 < 2 ^ 32 := by
    rw [Layout.slot_zero]
    omega
  have hheld : (c.pc t).held L = some a := by
    rw [hpc, Pc.held, L.word_base hfits' hlow]
  obtain ⟨ha, hfree⟩ := h.items.carried t a hheld
  rw [not_or] at hfree
  refine ⟨a, ?_⟩
  exact { h with
    active := rfl
    low := hlow
    bufs := ⟨h.bufs.fits, h.bufs.apart, ⟨ha, List.not_mem_nil⟩, h.bufs.mem, h.bufs.nodup⟩
    tallied := h.tallied_update (by simp [hpc])
    items := by
      have htaken : (Pc.node call (sub32 (base + L.max) L.max)).held L = some base := by rw [Pc.held, sub32_add hfits]
      refine h.items.trade hheld htaken (Or.inl rfl) fun x => ?_
      refine or_congr_right ⟨fun hx => ⟨Or.inr hx, ?_⟩, fun hx => hx.1.resolve_left hx.2⟩
      rintro rfl
      obtain ⟨l, hl, hb⟩ := hx
      exact h.lists.spare l hl hb
    lists := ⟨h.lists.once, h.lists.apart, fun l hl hb => hfree.2 ⟨l, hl, hb⟩⟩
    sole := h.sole.keep (by simp [Pc.replaces])
    knows := by
      refine Pc.knows_update trivial fun u hu => (h.knows u).of_none ?_
      -- the one thread that replaces the buffer
      cases hr : (c.pc u).replaces with
      | none => rfl
      | some x => exact absurd (h.sole u t x hr (by rw [hpc]; rfl)) hu }

/-- **A buffer is counted**, and its thread has the current list head. -/
theorem Pass.Inv.count (h : c.Inv base k cur) (hhead : c.g.head >>> tbShift ≠ 0) {buffer : Nat}
    (hpc : c.pc t = .count call buffer) :
    Pass.Inv { c with
      g := { c.g with head := (c.g.head + 1) % 2 ^ 64, counted := c.g.counted ++ [buffer] }
      pc := Function.update c.pc t (.link call buffer (c.g.head >>> tbShift)) } base k cur := by
  have hheld : (c.pc t).held L = some buffer := by rw [hpc]; rfl
  have hcur : cur ∈ c.heads := by
    refine h.current.resolve_right fun h0 => hhead ?_
    rw [shift_eq, h.header, h0.1, h0.2.1, List.length_nil]
    omega
  have hnew : buffer ∉ c.g.counted := fun hb => by
    obtain ⟨call', hlink⟩ := (h.counted_held hcur hb).2 t hheld
    rw [hpc] at hlink
    cases hlink
  have hnodup : (c.g.counted ++ [buffer]).Nodup :=
    h.counted.append (List.nodup_singleton buffer) (by simpa using hnew)
  have hlen : (c.g.counted ++ [buffer]).length < 2 ^ 32 := by
    refine h.bufs.length_lt hnodup fun b hb => ?_
    rcases List.mem_append.mp hb with hb | hb
    · exact (h.counted_held hcur hb).1
    · rw [List.mem_singleton.mp hb]
      exact (h.items.carried t buffer hheld).1
  rw [List.length_append, List.length_singleton] at hlen
  have hheaded := (h.headed cur hcur).2
  have hshift := h.head_shift hcur
  rw [hshift]
  exact { h with
    header := by
      change (c.g.head + 1) % 2 ^ 64 = cur * 2 ^ 32 + (c.g.counted ++ [buffer]).length
      rw [h.header, List.length_append, List.length_singleton]
      omega
    counted := hnodup
    tallied := fun b hb => by
      rcases List.mem_append.mp hb with hb | hb
      · exact h.tallied_update (by simp [hpc]) b hb
      · rw [List.mem_singleton.mp hb]
        exact Or.inr ⟨t, call, Function.update_self ..⟩
    current := Or.inl hcur
    items := h.items.keep (by rw [hpc]; rfl)
    sole := h.sole.keep (by simp [Pc.replaces])
    knows := Pc.knows_update ⟨hcur, Or.inl rfl⟩ fun u _ => h.knows u }

/-- **A buffer is enqueued** in the list of its head. -/
theorem Pass.Inv.link (h : c.Inv base k cur) {buffer tbh : Nat} (hpc : c.pc t = .link call buffer tbh) :
    Pass.Inv { c with
      g := { c.g with queue := c.g.queue ++ [buffer] }, pc := Function.update c.pc t (.fetch call)
      lists := Function.update c.lists tbh (c.lists tbh ++ [buffer]) } base k cur := by
  have hheld : (c.pc t).held L = some buffer := by rw [hpc]; rfl
  have hfree := (h.items.carried t buffer hheld).2
  rw [not_or, not_exists] at hfree
  have hnew : ∀ l ∈ c.heads, buffer ∉ c.lists l := fun l hl hb => hfree.2 l ⟨hl, hb⟩
  have hknows := h.knows t
  rw [hpc] at hknows
  obtain ⟨htbh, hwhere⟩ := hknows
  have htallied : ∀ b ∈ c.g.counted, b ∈ Function.update c.lists tbh (c.lists tbh ++ [buffer]) cur ∨
      ∃ u call', Function.update c.pc t (.fetch call) u = .link call' b cur := by
    intro b hb
    rw [mem_add_tail]
    rcases h.tallied b hb with hl | ⟨u, call', hu⟩
    · exact Or.inl (Or.inl hl)
    · by_cases hut : u = t
      · rw [hut, hpc] at hu
        cases hu
        exact Or.inl (Or.inr ⟨rfl, rfl⟩)
      · exact Or.inr ⟨u, call', by rw [Function.update_of_ne hut, hu]⟩
  have hsettled : ∀ b, (b = base ∨ ∃ l ∈ c.heads, b ∈ Function.update c.lists tbh (c.lists tbh ++ [buffer]) l) ↔
      (b = base ∨ ∃ l ∈ c.heads, b ∈ c.lists l) ∨ b = buffer := by
    intro b
    rw [exists_mem_add_tail htbh, or_assoc]
  have hstage : Pass.Knows { c with lists := Function.update c.lists tbh (c.lists tbh ++ [buffer]) } cur := by
    refine h.stage.of_lists fun l hl hwalk => Function.update_of_ne ?_ _ _
    rintro rfl
    exact hwhere.elim hl hwalk
  exact { h with
    tallied := htallied
    lists := h.lists.add_tail htbh hnew hfree.1
    items := h.items.settle hheld rfl hsettled
    sole := h.sole.keep (by simp [Pc.replaces])
    knows := Pc.knows_update trivial fun u _ => h.knows u
    stage := hstage }

/-- **A step in `addEntry`** that loses nothing. -/
theorem Pass.Inv.add (h : c.Inv base k cur) {move : Move L} (hkeeps : c.Keeps (c.pc t) move) {s : Shared L × Pc}
    (hs : c.g.addEntry (c.pc t) move = some s) : ∃ a j, Pass.Inv { c with
      g := s.1, pc := Function.update c.pc t s.2, lists := (c.pc t).linked c.lists } a j cur := by
  cases hpc : c.pc t with
  | idle =>
    cases move with
    | enter rec sec =>
      simp only [hpc, Shared.addEntry, Option.some.injEq] at hs
      subst hs
      exact ⟨base, k, h.keep rfl rfl rfl rfl (by simp [hpc]) (by rw [hpc]; rfl) rfl trivial⟩
    | _ => simp [hpc, Shared.addEntry] at hs
  | fetch call =>
    cases move with
    | run =>
      rw [hpc] at hkeeps hs
      have hroom : L.slot base k + L.width < 2 ^ 32 := by
        have hlow : (c.g.active &&& tbCurrPtrMask) + L.width < 2 ^ 32 := hkeeps
        rwa [h.active, L.word_low h.low] at hlow
      exact ⟨base, k + 1, h.fetch hroom hpc hs⟩
    | _ => simp [hpc, Shared.addEntry] at hs
  | init call cptr =>
    cases move with
    | new ptr =>
      cases ptr with
      | none =>
        simp only [hpc, Shared.addEntry, Option.some.injEq] at hs
        subst hs
        exact ⟨base, k, h.keep rfl rfl rfl rfl (by simp [hpc]) (by rw [hpc]; rfl) rfl trivial⟩
      | some a =>
        simp only [hpc, Shared.addEntry] at hs
        split_ifs at hs with ha
        obtain rfl := Option.some.inj hs
        exact ⟨base, k, h.alloc hpc ha⟩
    | _ => simp [hpc, Shared.addEntry] at hs
  | exchange call cptr newbuf =>
    cases move with
    | run =>
      simp only [hpc, Shared.addEntry, Option.some.injEq] at hs
      subst hs
      obtain ⟨a, ha⟩ := h.exchange hpc
      exact ⟨a, 0, ha⟩
    | _ => simp [hpc, Shared.addEntry] at hs
  | node call buffer =>
    cases move with
    | malloc ok =>
      rw [hpc] at hkeeps
      have hok : ok = true := hkeeps
      simp only [hpc, Shared.addEntry, hok, ↓reduceIte, Option.some.injEq] at hs
      subst hs
      exact ⟨base, k, h.keep rfl rfl rfl rfl (by simp [hpc]) (by rw [hpc]; rfl) rfl trivial⟩
    | _ => simp [hpc, Shared.addEntry] at hs
  | count call buffer =>
    cases move with
    | run =>
      rw [hpc] at hkeeps
      simp only [hpc, Shared.addEntry, Option.some.injEq] at hs
      subst hs
      exact ⟨base, k, h.count hkeeps hpc⟩
    | _ => simp [hpc, Shared.addEntry] at hs
  | link call buffer tbh =>
    cases move with
    | run =>
      have hknows := h.knows t
      rw [hpc] at hknows
      have hpos : tbh ≠ 0 := Nat.ne_of_gt (h.headed tbh hknows.1).1
      simp only [hpc, Shared.addEntry, hpos, ↓reduceIte, Option.some.injEq] at hs
      subst hs
      simp only [Pc.linked, hpos, ↓reduceIte]
      exact ⟨base, k, h.link hpc⟩
    | _ => simp [hpc, Shared.addEntry] at hs
  | copy call cptr =>
    cases move with
    | run =>
      simp only [hpc, Shared.addEntry] at hs
      split at hs
      · obtain rfl := Option.some.inj hs
        exact ⟨base, k, h.keep rfl rfl rfl rfl (by simp [hpc]) (by rw [hpc]; rfl) rfl trivial⟩
      · cases hs
    | _ => simp [hpc, Shared.addEntry] at hs

end Inv

/-! ## The steps of the flush thread -/

section Run

variable {τ : Type*} {c : Pass τ L} {stage : Stage} {base k cur head : Nat}

/-- The flush thread goes on, from another stage than a walk. -/
theorem Pass.Inv.goto (h : c.Inv base k cur) (hwalk : ∀ l, c.stage ≠ .walk l)
    (hstage : Pass.Knows { c with stage := stage } cur) : Pass.Inv { c with stage := stage } base k cur :=
  { h with
    knows := fun u => (h.knows u).of_link fun l _ hl hcur => ⟨hl, Or.inl (hcur.resolve_right (hwalk l))⟩
    stage := hstage }

/-- The tracer is interrupted. -/
theorem Pass.Inv.interrupt (h : c.Inv base k cur) : Pass.Inv { c with interrupted := true } base k cur :=
  { h with
    current := h.current.imp_right fun h0 => ⟨h0.1, h0.2.1, rfl⟩
    stage := by
      have hstage := h.stage
      simp only [Pass.Knows] at hstage ⊢
      cases hs : c.stage with
      | detach newTbh =>
        rw [hs] at hstage
        exact ⟨hstage.1, hstage.2.imp_left fun h0 => ⟨h0.1, trivial⟩⟩
      | _ =>
        rw [hs] at hstage
        exact hstage }

/-- There is a list head until an interruption. -/
theorem Pass.Inv.current_ne (h : c.Inv base k cur) (hrun : c.interrupted ≠ true) : cur ≠ 0 := by
  rcases h.current with hcur | ⟨-, -, hint⟩
  · exact Nat.ne_of_gt (h.headed cur hcur).1
  · exact absurd hint hrun

theorem Pass.Inv.current_mem (h : c.Inv base k cur) (hcur : cur ≠ 0) : cur ∈ c.heads :=
  h.current.resolve_right fun h0 => hcur h0.1

/-- **The list is detached**: threads may still link nodes to it. -/
theorem Pass.Inv.detach (h : c.Inv base k cur) {newTbh : Nat} (hs : c.stage = .detach newTbh) :
    ∃ cur', Pass.Inv { c with
      g := { c.g with head := newTbh, counted := [] }, stage := .walk (c.g.head >>> tbShift) } base k cur' := by
  have hstage := h.stage
  simp only [Pass.Knows, hs] at hstage
  obtain ⟨hcur, hnew⟩ := hstage
  have hmem := h.current_mem hcur
  rw [h.head_shift hmem]
  obtain ⟨cur', hhead, hne, hcurrent⟩ : ∃ cur', newTbh = cur' * 2 ^ 32 ∧ cur ≠ cur' ∧
      (cur' ∈ c.heads ∨ cur' = 0 ∧ c.interrupted = true) := by
    rcases hnew with ⟨h0, hint⟩ | ⟨a, ha, htbh, hne, -⟩
    · exact ⟨0, by rw [h0, Nat.zero_mul], hcur, Or.inr ⟨rfl, hint⟩⟩
    · exact ⟨a, by rw [htbh, traceHead_eq], hne.symm, Or.inl ha⟩
  have hheader : newTbh = cur' * 2 ^ 32 + ([] : List Nat).length := by rw [hhead, List.length_nil, Nat.add_zero]
  refine ⟨cur', ?_⟩
  exact { h with
    header := hheader
    counted := List.nodup_nil
    tallied := fun b hb => absurd hb List.not_mem_nil
    current := hcurrent.imp_right fun h0 => ⟨h0.1, rfl, h0.2⟩
    knows := fun u => (h.knows u).of_link fun l _ hl hwhere => by
      obtain rfl : l = cur := hwhere.resolve_right (by simp [hs])
      exact ⟨hl, Or.inr rfl⟩
    stage := ⟨hmem, hne⟩ }

/-- **A buffer is flushed and freed.** -/
theorem Pass.Inv.flush (h : c.Inv base k cur) (hs : c.stage = .walk head) {x : Nat} {rest : List Nat}
    (hlist : c.lists head = x :: rest) :
    Pass.Inv { c with g := { c.g with bufs := c.g.bufs.erase x }, lists := Function.update c.lists head rest } base k cur := by
  have hstage := h.stage
  simp only [Pass.Knows, hs] at hstage
  obtain ⟨hhead, hne⟩ := hstage
  have hx : x ∈ c.lists head := by
    rw [hlist]
    exact List.mem_cons_self
  have hbase : base ≠ x := by
    rintro rfl
    exact h.lists.spare head hhead hx
  have htallied : ∀ b ∈ c.g.counted, b ∈ Function.update c.lists head rest cur ∨ ∃ t call, c.pc t = .link call b cur := by
    rw [Function.update_of_ne hne.symm]
    exact h.tallied
  have hsettled : ∀ b, (b = base ∨ ∃ l ∈ c.heads, b ∈ Function.update c.lists head rest l) ↔
      (b = base ∨ ∃ l ∈ c.heads, b ∈ c.lists l) ∧ b ≠ x := by
    intro b
    rw [h.lists.exists_mem_tail hhead hlist, or_and_right]
    refine or_congr_left ⟨fun hb => ⟨hb, ?_⟩, And.left⟩
    rw [hb]
    exact hbase
  have hbufs : Buffers L (c.g.bufs.erase x) [] base :=
    ⟨fun b hb => h.bufs.fits b (List.mem_of_mem_erase hb),
      fun b hb b' hb' => h.bufs.apart b (List.mem_of_mem_erase hb) b' (List.mem_of_mem_erase hb'),
      ⟨(List.mem_erase_of_ne hbase).mpr h.bufs.active.1, List.not_mem_nil⟩, fun b hb => absurd hb List.not_mem_nil,
      List.nodup_nil⟩
  exact { h with
    bufs := hbufs
    distinct := h.distinct.erase x
    tallied := htallied
    lists := h.lists.tail hhead hlist
    items := h.items.retire (Or.inr ⟨head, hhead, hx⟩) (fun b => by rw [h.distinct.mem_erase_iff, and_comm]) hsettled
    stage := h.stage.of_lists fun l hl hwalk => Function.update_of_ne (by
      rintro rfl
      exact hwalk hs) _ _ }

/-- The end of the list: no thread links to it any more. -/
theorem Pass.Inv.walked (h : c.Inv base k cur) (hs : c.stage = .walk head) (hnil : c.lists head = [])
    (hlinks : ∀ t, ¬ (c.pc t).LinksTo head) : Pass.Inv { c with stage := .free head } base k cur := by
  have hstage := h.stage
  simp only [Pass.Knows, hs] at hstage
  exact { h with
    knows := fun u => (h.knows u).of_link fun l hlink hl hwhere => by
      refine ⟨hl, Or.inl (hwhere.resolve_right fun hwalk => ?_)⟩
      rw [hs] at hwalk
      cases hwalk
      exact hlinks u hlink
    stage := ⟨hstage.1, hstage.2, hnil⟩ }

/-- The list head is freed. -/
theorem Pass.Inv.free (h : c.Inv base k cur) (hs : c.stage = .free head) :
    Pass.Inv { c with heads := c.heads.erase head, stage := .test } base k cur := by
  have hstage := h.stage
  simp only [Pass.Knows, hs] at hstage
  obtain ⟨-, hne, hnil⟩ := hstage
  have hkeep : ∀ l ∈ c.heads, l ≠ head → l ∈ c.heads.erase head := fun l hl hlh => (List.mem_erase_of_ne hlh).mpr hl
  have hsettled : ∀ b, (b = base ∨ ∃ l ∈ c.heads.erase head, b ∈ c.lists l) ↔ (b = base ∨ ∃ l ∈ c.heads, b ∈ c.lists l) := by
    intro b
    refine or_congr_right ⟨?_, ?_⟩
    · rintro ⟨l, hl, hb⟩
      exact ⟨l, List.mem_of_mem_erase hl, hb⟩
    · rintro ⟨l, hl, hb⟩
      refine ⟨l, hkeep l hl ?_, hb⟩
      rintro rfl
      rw [hnil] at hb
      exact List.not_mem_nil hb
  exact { h with
    current := h.current.imp_left fun hcur => hkeep cur hcur hne.symm
    heads := h.heads.erase head
    headed := fun l hl => h.headed l (List.mem_of_mem_erase hl)
    lists := h.lists.erase head
    items := h.items.congr hsettled
    knows := fun u => (h.knows u).of_link fun l _ hl hwhere => by
      obtain rfl : l = cur := hwhere.resolve_right (by simp [hs])
      exact ⟨hkeep l hl hne.symm, Or.inl rfl⟩
    stage := trivial }

/-- There is a new list head. -/
theorem Pass.Inv.renew (h : c.Inv base k cur) (hs : c.stage = .renew) {a : Nat} (hfits : 0 < a ∧ a < 2 ^ 32)
    (ha : a ∉ c.heads) : Pass.Inv { c with
      heads := c.heads ++ [a], lists := Function.update c.lists a [], stage := .detach (traceHead a) } base k cur := by
  have hcur : cur ≠ 0 := by
    have hstage := h.stage
    simpa only [Pass.Knows, hs] using hstage
  have hmem := h.current_mem hcur
  have hne : a ≠ cur := by
    rintro rfl
    exact ha hmem
  have htallied : ∀ b ∈ c.g.counted, b ∈ Function.update c.lists a [] cur ∨ ∃ t call, c.pc t = .link call b cur := by
    rw [Function.update_of_ne hne.symm]
    exact h.tallied
  have hsettled : ∀ b, (b = base ∨ ∃ l ∈ c.heads ++ [a], b ∈ Function.update c.lists a [] l) ↔
      (b = base ∨ ∃ l ∈ c.heads, b ∈ c.lists l) := fun b => or_congr_right (exists_congr fun l => mem_new ha)
  exact { h with
    tallied := htallied
    current := Or.inl (List.mem_append_left _ hmem)
    heads := h.heads.append (List.nodup_singleton a) (by simpa using ha)
    headed := fun l hl => by
      rcases List.mem_append.mp hl with hl | hl
      · exact h.headed l hl
      · rw [List.mem_singleton.mp hl]
        exact hfits
    lists := h.lists.new ha
    items := h.items.congr hsettled
    knows := fun u => (h.knows u).of_link fun l _ hl hwhere =>
      ⟨List.mem_append_left _ hl, Or.inl (hwhere.resolve_right (by simp [hs]))⟩
    stage := ⟨hcur, Or.inr ⟨a, List.mem_append_right _ (List.mem_singleton.mpr rfl), rfl, hne, Function.update_self ..⟩⟩ }

theorem Pass.Inv.word_lt (h : c.Inv base k cur) : c.g.active < 2 ^ 64 := by
  rw [h.active]
  exact L.word_lt (h.bufs.fits base h.bufs.active.1).2 h.low

/-- A pass that finds enough in use replaces nothing. -/
theorem Pass.Inv.not_replaces (h : c.Inv base k cur)
    (hptr : c.g.active &&& tbCurrPtrMask ≤ c.g.active >>> tbShift)
    (hhalf : 2 * (c.g.active >>> tbShift - (c.g.active &&& tbCurrPtrMask)) ≤ L.max) : ¬ L.Replaces c.g.active := by
  rw [Layout.replaces_iff_lt hptr h.word_lt]
  omega

/-- **A step of the flush thread.** -/
theorem Pass.Inv.run (h : c.Inv base k cur) (hsound : c.Sound .run) {s : Pass τ L} (hs : c.run = some s) :
    ∃ cur', s.Inv base k cur' := by
  have hknows := h.stage
  simp only [Pass.Sound, Pass.SoundAt] at hsound
  simp only [Pass.Knows] at hknows
  cases hstage : c.stage with
  | test =>
    simp only [Pass.run, hstage, Option.some.injEq] at hs
    subst hs
    refine ⟨cur, h.goto (by simp [hstage]) ?_⟩
    split_ifs with hint
    · trivial
    · exact h.current_ne hint
  | peek =>
    simp only [hstage] at hsound hknows
    simp only [Pass.run, hstage, h.not_replaces hsound.1 hsound.2, ↓reduceIte, Option.some.injEq] at hs
    subst hs
    exact ⟨cur, h.goto (by simp [hstage]) hknows⟩
  | header =>
    simp only [hstage] at hknows
    simp only [Pass.run, hstage, Option.some.injEq] at hs
    subst hs
    refine ⟨cur, h.goto (by simp [hstage]) ?_⟩
    split_ifs
    · trivial
    · exact hknows
  | swap =>
    simp only [hstage] at hknows
    simp only [Pass.run, hstage, Option.some.injEq] at hs
    subst hs
    refine ⟨cur, h.goto (by simp [hstage]) ?_⟩
    split_ifs with hint
    · exact ⟨hknows, Or.inl ⟨rfl, hint⟩⟩
    · exact hknows
  | detach newTbh =>
    simp only [Pass.run, hstage, Option.some.injEq] at hs
    subst hs
    exact h.detach hstage
  | walk head =>
    simp only [hstage] at hsound
    simp only [Pass.run, hstage] at hs
    cases hlist : c.lists head with
    | nil =>
      simp only [hlist, Option.some.injEq] at hs
      subst hs
      exact ⟨cur, h.walked hstage hlist (hsound hlist)⟩
    | cons x rest =>
      simp only [hlist, Option.some.injEq] at hs
      subst hs
      have hflush := h.flush hstage hlist
      rw [hstage] at hflush
      exact ⟨cur, hflush⟩
  | free head =>
    simp only [Pass.run, hstage, Option.some.injEq] at hs
    subst hs
    exact ⟨cur, h.free hstage⟩
  | sleep => simp [Pass.run, hstage] at hs
  | renew => simp [Pass.run, hstage] at hs
  | ended => simp [Pass.run, hstage] at hs
  | init cptr => simp [hstage] at hknows
  | exchange cptr newbuf => simp [hstage] at hknows
  | enqueue q => simp [hstage] at hknows

variable [DecidableEq τ]

/-- **One step keeps the invariant**, if it is sound. -/
theorem Pass.Inv.step (h : c.Inv base k cur) {e : Event τ L} (hsound : c.Sound e) {s : Pass τ L}
    (hs : c.step e = some s) : ∃ a j cur', s.Inv a j cur' := by
  have hknows := h.stage
  simp only [Pass.Knows] at hknows
  cases e with
  | add t move =>
    obtain ⟨r, hr, rfl⟩ := Option.map_eq_some_iff.mp hs
    obtain ⟨a, j, ha⟩ := h.add hsound hr
    exact ⟨a, j, cur, ha⟩
  | interrupt =>
    cases hs
    exact ⟨base, k, cur, h.interrupt⟩
  | wake sec =>
    cases hstage : c.stage with
    | sleep =>
      simp only [hstage] at hknows
      simp only [Pass.step, hstage, Option.some.injEq] at hs
      subst hs
      refine ⟨base, k, cur, h.goto (by simp [hstage]) ?_⟩
      split_ifs
      · exact hknows
      · exact hknows
    | _ => simp [Pass.step, hstage] at hs
  | new ptr =>
    cases hstage : c.stage with
    | init cptr => simp [hstage] at hknows
    | _ => simp [Pass.step, hstage] at hs
  | malloc ok =>
    cases hstage : c.stage with
    | enqueue q => simp [hstage] at hknows
    | _ => simp [Pass.step, hstage] at hs
  | head ptr =>
    cases hstage : c.stage with
    | renew =>
      cases ptr with
      | none =>
        simp only [Pass.step, hstage, Option.some.injEq] at hs
        subst hs
        exact ⟨base, k, cur, h.goto (by simp [hstage]) trivial⟩
      | some a =>
        simp only [Pass.step, hstage] at hs
        split_ifs at hs with hnew
        obtain rfl := Option.some.inj hs
        exact ⟨base, k, cur, h.renew hstage hnew.1 hnew.2⟩
    | _ => simp [Pass.step, hstage] at hs
  | run =>
    obtain ⟨cur', hcur'⟩ := h.run hsound hs
    exact ⟨base, k, cur', hcur'⟩

omit [DecidableEq τ] in
theorem Pass.Started.inv (h : c.Started) : ∃ base k cur, c.Inv base k cur := by
  obtain ⟨hidle, buf, head, ts, mem, hbuf, hhead, hg, hstage, hheads, hlist, hhanded, hused⟩ := h
  refine ⟨buf, 0, head, ?_⟩
  constructor
  case active => simp only [hg, Shared.tracer, L.traceBuf_eq hbuf.2]
  case low => rw [Layout.slot_zero]; omega
  case bufs =>
    rw [hg]
    exact Buffers.single hbuf
  case distinct => rw [hg]; exact List.nodup_singleton buf
  case header => simp only [hg, Shared.tracer, traceHead_eq, List.length_nil, Nat.add_zero]
  case counted => rw [hg]; exact List.nodup_nil
  case tallied => rw [hg]; exact fun b hb => absurd hb List.not_mem_nil
  case current => exact Or.inl (by rw [hheads]; exact List.mem_singleton.mpr rfl)
  case heads => rw [hheads]; exact List.nodup_singleton head
  case headed =>
    intro l hl
    rw [hheads, List.mem_singleton] at hl
    rw [hl]
    exact hhead
  case lists =>
    have hnil : ∀ l ∈ c.heads, c.lists l = [] := fun l hl => by
      rw [hheads, List.mem_singleton] at hl
      rw [hl, hlist]
    refine ⟨fun l hl => ?_, fun l hl l' hl' b hb => ?_, fun l hl hb => ?_⟩
    · rw [hnil l hl]
      exact List.nodup_nil
    · rw [hnil l hl] at hb
      exact absurd hb List.not_mem_nil
    · rw [hnil l hl] at hb
      exact List.not_mem_nil hb
  case items => exact Carried.of_none (fun t => by rw [hidle t]; rfl) (by simp [hg, Shared.tracer, hheads, hlist])
  case sole => exact Sole.of_none fun t => by rw [hidle t]; rfl
  case knows => exact fun t => by rw [hidle t]; trivial
  case stage => rw [Pass.Knows, hstage]; trivial
  case handed => exact hhanded
  case used => exact hused

omit [DecidableEq τ] in
theorem Pass.Inv.base_eq (h : c.Inv base k cur) : c.base = base := by
  rw [Pass.base, h.active, L.word_base (h.bufs.fits base h.bufs.active.1).2 h.low]

omit [DecidableEq τ] in
theorem Pass.Inv.right (h : c.Inv base k cur) : c.Right where
  handed := by
    rw [h.handed]
    exact fun p hp => absurd hp List.not_mem_nil
  half := by
    rw [h.used]
    exact fun n hn => absurd hn List.not_mem_nil
  once := h.lists.once
  apart := h.lists.apart
  allocated := fun l hl b hb => by
    rw [h.base_eq]
    refine ⟨h.items.given_of b (Or.inr ⟨l, hl, hb⟩), ?_⟩
    rintro rfl
    exact h.lists.spare l hl hb
  placed := fun b hb => by
    rw [h.base_eq]
    rcases h.items.placed b hb with (hbase | hl) | ht
    · exact Or.inl hbase
    · exact Or.inr (Or.inl hl)
    · exact Or.inr (Or.inr (Or.inl ht))

/-- **A pass that replaces a buffer does so too early**, unless its pointer is past the end. -/
theorem Pass.Inv.peek_iff (h : c.Inv base k cur) (hstage : c.stage = .peek)
    (hptr : c.g.active &&& tbCurrPtrMask ≤ c.g.active >>> tbShift) {s : Pass τ L} (hs : c.step .run = some s) :
    s.Right ↔ c.Sound .run := by
  refine ⟨fun hright => ?_, fun hsound => ?_⟩
  · simp only [Pass.Sound, Pass.SoundAt, hstage]
    refine ⟨hptr, ?_⟩
    have hfits := (h.bufs.fits base h.bufs.active.1).2
    have hk : k ≤ L.size := by
      rw [h.active, L.word_low h.low, L.word_high h.low, ← Layout.slot_size] at hptr
      exact L.slot_le_iff.mp hptr
    by_contra hfree
    have hreplaces : L.Replaces c.g.active := (Layout.replaces_iff_lt hptr h.word_lt).mpr (Nat.lt_of_not_le hfree)
    simp only [Pass.step, Pass.run, hstage, hreplaces, ↓reduceIte, Option.some.injEq] at hs
    subst hs
    -- the buffer that it replaces has too few slots in use
    have hhalf := hright.half (L.inUse c.g.active) (List.mem_append_right _ (List.mem_singleton.mpr rfl))
    rw [h.active] at hreplaces hhalf
    rw [Layout.inUse_word hfits hk] at hhalf
    exact absurd ((Layout.replaces_iff hfits hk).mp hreplaces) (Nat.not_lt_of_le hhalf)
  · obtain ⟨a, j, cur', hinv⟩ := h.step hsound hs
    exact hinv.right

end Run

/-! ## Two runs -/

/-- A tracer with its first buffer at `0x10` and its list head at `0x100`. -/
def started (τ : Type) (L : Layout) : Pass τ L where
  g := .tracer 0x10 0x100 0 fun _ => 0
  pc := fun _ => .idle
  stage := .test
  interrupted := false
  heads := [0x100]
  lists := fun _ => []
  handed := []
  used := []

theorem started_started (τ : Type) {L : Layout} (h : 0x10 + L.max < 2 ^ 32) : (started τ L).Started :=
  ⟨fun _ => rfl, 0x10, 0x100, 0, _, ⟨by omega, h⟩, ⟨by omega, by omega⟩, rfl, rfl, rfl, rfl, rfl, rfl⟩

/-- A thread fills a buffer, replaces it, and counts it. -/
def fills : List (Move pairs) :=
  [.enter (fun _ => 7) 0, .run, .run, .enter (fun _ => 8) 0, .run, .run, .enter (fun _ => 9) 1, .run, .new (some 0x20), .run,
    .malloc true, .run]

/-- The thread links it to the list that the flush thread has detached meanwhile; another adds a record to the new buffer. -/
def linksLate : List (Event Bool pairs) :=
  fills.map (.add false) ++
    [.add true (.enter (fun _ => 10) 1), .add true .run, .add true .run, .run, .wake 200, .run, .run, .run,
      .head (some 0x200), .run, .add false .run, .run, .add false .run, .run, .run, .run, .wake 400]

/-- No thread has added anything when the flush thread looks. -/
def untouched : List (Event Unit pairs) :=
  [.run, .wake 200, .run, .new (some 0x20), .run, .malloc true, .run, .run]

end Cosmost.Tracer
