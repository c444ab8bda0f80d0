import Cosmost.Tracer.Defs
import Cosmost.Lib.Owners
import Mathlib.Data.List.Nodup
import Mathlib.Data.List.Perm.Subperm
import Mathlib.Data.List.Range

/-!
# Slots and replaced buffers of a tracer (`tracer.h`)

Of the active buffer, the first slots were handed out, up to where `fetch_add` has advanced the pointer; threads that
find it past the end advance it further. One thread finds it at the end exactly, and of a replaced buffer all slots were
handed out. What threads carry, a call, a slot or a buffer, is in nobody else's hands (`Lib.Carried`).

`slots_exact`: in every run in which the pointer does not overflow, every record is copied to a slot of its own, and
every replaced buffer is enqueued once and full, unless an allocation fails. `allocations_fail` is a run in which two
allocations do, and a buffer and a record are lost.
-/

namespace Cosmost.Tracer

open Cosmost.Lib

/-! ## Words -/

theorem and_currPtrMask (x : Nat) : x &&& tbCurrPtrMask = x % 2 ^ 32 := Nat.and_two_pow_sub_one_eq_mod x 32

theorem shift_eq (x : Nat) : x >>> tbShift = x / 2 ^ 32 := Nat.shiftRight_eq_div_pow x 32

theorem traceHead_eq (head : Nat) : traceHead head = head * 2 ^ 32 := Nat.shiftLeft_eq head 32

theorem sub32_add {a m : Nat} (h : a + m < 2 ^ 32) : sub32 (a + m) m = a := by
  rw [sub32]
  omega

/-- `k` slots after the start of the buffer at `b`, in a word. -/
def Layout.word (L : Layout) (b k : Nat) : Nat := (b + L.max) * 2 ^ 32 + L.slot b k

section Words

variable {L : Layout} {b i j k : Nat}

theorem Layout.slot_zero : L.slot b 0 = b := by rw [Layout.slot, Nat.mul_zero, Nat.add_zero]

theorem Layout.traceBuf_eq (h : b + L.max < 2 ^ 32) : L.traceBuf b = L.word b 0 := by
  have hb : b < 2 ^ 32 := by omega
  rw [Layout.traceBuf, add32, Nat.mod_eq_of_lt h, tbShift, ← Nat.shiftLeft_add_eq_or_of_lt hb, Nat.shiftLeft_eq,
    Layout.word, Layout.slot_zero]

/-- Not even the end of a buffer is past the address space. -/
theorem Layout.word_lt (hb : b + L.max < 2 ^ 32) (h : L.slot b k < 2 ^ 32) : L.word b k < 2 ^ 64 := by
  rw [Layout.word]
  omega

theorem Layout.word_low (h : L.slot b k < 2 ^ 32) : L.word b k &&& tbCurrPtrMask = L.slot b k := by
  rw [and_currPtrMask, Layout.word]
  omega

theorem Layout.word_high (h : L.slot b k < 2 ^ 32) : L.word b k >>> tbShift = b + L.max := by
  rw [shift_eq, Layout.word]
  omega

/-- From the end in the word the base address can be computed. -/
theorem Layout.word_base (hb : b + L.max < 2 ^ 32) (h : L.slot b k < 2 ^ 32) :
    sub32 (L.word b k >>> tbShift) L.max = b := by
  rw [L.word_high h, sub32_add hb]

theorem Layout.slot_succ : L.slot b (k + 1) = L.slot b k + L.width := by
  rw [Layout.slot, Layout.slot, Nat.mul_succ, Nat.add_assoc]

theorem Layout.slot_size : L.slot b L.size = b + L.max := rfl

theorem Layout.slot_lt (h : i < j) : L.slot b i + L.width ≤ L.slot b j := by
  have := Nat.mul_le_mul_left L.width (Nat.succ_le_of_lt h)
  rw [Nat.mul_succ] at this
  simp only [Layout.slot]
  omega

theorem Layout.slot_le_iff : L.slot b i ≤ L.slot b j ↔ i ≤ j := by
  rw [Layout.slot, Layout.slot, Nat.add_le_add_iff_left, Nat.mul_le_mul_left_iff L.width_pos]

theorem Layout.slot_inj (h : L.slot b i = L.slot b j) : i = j :=
  Nat.le_antisymm (Layout.slot_le_iff.mp (Nat.le_of_eq h)) (Layout.slot_le_iff.mp (Nat.le_of_eq h.symm))

/-- The `fetch_add`, as long as there is room. -/
theorem Layout.word_add (hb : b + L.max < 2 ^ 32) (h : L.slot b k + L.width < 2 ^ 32) :
    (L.word b k + L.width) % 2 ^ 64 = L.word b (k + 1) := by
  rw [Layout.word, Layout.word, Layout.slot_succ]
  omega

end Words

/-! ## Buffers and slots -/

variable {L : Layout}

/-- The active buffer and those that it replaced are different buffers, apart from each other. -/
structure Buffers (L : Layout) (bufs replaced : List Nat) (base : Nat) : Prop where
  fits : ∀ b ∈ bufs, 0 < b ∧ b + L.max < 2 ^ 32
  apart : ∀ b ∈ bufs, ∀ b' ∈ bufs, b ≠ b' → b + L.max ≤ b' ∨ b' + L.max ≤ b
  active : base ∈ bufs ∧ base ∉ replaced
  mem : ∀ b ∈ replaced, b ∈ bufs
  nodup : replaced.Nodup

/-- The slots that were given are all those of the replaced buffers, and the first `k` of the active one. -/
structure Given (L : Layout) (given replaced : List Nat) (base k : Nat) : Prop where
  mem : ∀ s, s ∈ given ↔ ∃ i < L.size, ∃ b, s = L.slot b i ∧ (b ∈ replaced ∨ b = base ∧ i < k)
  nodup : given.Nodup

/-- The record is at an address. -/
def Holds (mem : Nat → UInt8) (s : Nat) (rec : Record L) : Prop := ∀ i, mem (s + i.val) = rec i

/-- Each record that was copied is where it was copied to, and no two are in one place. -/
structure Copies (mem : Nat → UInt8) (calls : List (Record L)) (copied : List (Nat × Nat)) : Prop where
  holds : ∀ p ∈ copied, ∃ rec, calls[p.1]? = some rec ∧ Holds mem p.2 rec
  once : (copied.map Prod.fst).Nodup
  own : (copied.map Prod.snd).Nodup

section Buffers

variable {bufs replaced given : List Nat} {base k a b b' i s s' : Nat}

/-- There is only the active buffer. -/
theorem Buffers.single (h : 0 < base ∧ base + L.max < 2 ^ 32) : Buffers L [base] [] base where
  fits := fun b hb => by
    rw [List.mem_singleton.mp hb]
    exact h
  apart := fun b hb b' hb' hne => absurd ((List.mem_singleton.mp hb).trans (List.mem_singleton.mp hb').symm) hne
  active := ⟨List.mem_singleton.mpr rfl, List.not_mem_nil⟩
  mem := fun b hb => absurd hb List.not_mem_nil
  nodup := List.nodup_nil

/-- Slots of different buffers share no byte. -/
theorem Buffers.slots_apart (h : Buffers L bufs replaced base) (hb : b ∈ bufs) (hb' : b' ∈ bufs) {j : Nat}
    (hi : i < L.size) (hj : j < L.size) (hbb : b ≠ b') :
    L.slot b i + L.width ≤ L.slot b' j ∨ L.slot b' j + L.width ≤ L.slot b i := by
  have hi' := L.slot_lt (b := b) hi
  have hj' := L.slot_lt (b := b') hj
  rw [Layout.slot_size] at hi' hj'
  have hlow : b ≤ L.slot b i ∧ b' ≤ L.slot b' j := ⟨Nat.le_add_right _ _, Nat.le_add_right _ _⟩
  rcases h.apart b hb b' hb' hbb with hle | hle
  · left; omega
  · right; omega

/-- Different slots share no byte. -/
theorem Buffers.slot_apart (h : Buffers L bufs replaced base) (hb : b ∈ bufs) (hb' : b' ∈ bufs) {j : Nat}
    (hi : i < L.size) (hj : j < L.size) (hne : L.slot b i ≠ L.slot b' j) :
    L.slot b i + L.width ≤ L.slot b' j ∨ L.slot b' j + L.width ≤ L.slot b i := by
  by_cases hbb : b = b'
  · subst hbb
    have hij : i ≠ j := fun hij => hne (by rw [hij])
    rcases Nat.lt_or_gt_of_ne hij with hlt | hgt
    · exact Or.inl (L.slot_lt hlt)
    · exact Or.inr (L.slot_lt hgt)
  · exact h.slots_apart hb hb' hi hj hbb

/-- A slot belongs to one buffer. -/
theorem Buffers.slot_buffer (h : Buffers L bufs replaced base) (hb : b ∈ bufs) (hb' : b' ∈ bufs) {j : Nat}
    (hi : i < L.size) (hj : j < L.size) (heq : L.slot b i = L.slot b' j) : b = b' := by
  by_contra hbb
  have hw := L.width_pos
  rcases h.slots_apart hb hb' hi hj hbb with hle | hle <;> omega

/-- A new buffer. -/
theorem Buffers.alloc {g : Shared L} (h : Buffers L g.bufs replaced base) (ha : g.Fresh a) :
    Buffers L (g.bufs ++ [a]) replaced base where
  fits := fun b hb => by
    rw [List.mem_append, List.mem_singleton] at hb
    rcases hb with hb | rfl
    · exact h.fits b hb
    · exact ⟨ha.1, ha.2.1⟩
  apart := fun b hb b' hb' hne => by
    rw [List.mem_append, List.mem_singleton] at hb hb'
    rcases hb with hb | rfl <;> rcases hb' with hb' | rfl
    · exact h.apart b hb b' hb' hne
    · exact (ha.2.2.2 b hb).symm
    · exact ha.2.2.2 b' hb'
    · exact absurd rfl hne
  active := ⟨List.mem_append_left _ h.active.1, h.active.2⟩
  mem := fun b hb => List.mem_append_left _ (h.mem b hb)
  nodup := h.nodup

/-- The exchange of the active buffer for a new one. -/
theorem Buffers.exchange (h : Buffers L bufs replaced base) (ha : a ∈ bufs) (hr : a ∉ replaced) (hne : a ≠ base) :
    Buffers L bufs (replaced ++ [base]) a where
  fits := h.fits
  apart := h.apart
  active := ⟨ha, by simp [hr, hne]⟩
  mem := fun b hb => by
    rcases List.mem_append.mp hb with hb | hb
    · exact h.mem b hb
    · rw [List.mem_singleton.mp hb]
      exact h.active.1
  nodup := h.nodup.append (List.nodup_singleton base) (by simpa using h.active.2)

/-- A slot that was given is one of an allocated buffer. -/
theorem Given.buffer (h : Given L given replaced base k) (hb : Buffers L bufs replaced base) (hs : s ∈ given) :
    ∃ b ∈ bufs, ∃ i < L.size, s = L.slot b i := by
  obtain ⟨i, hi, b, rfl, hr | ⟨rfl, -⟩⟩ := (h.mem s).mp hs
  · exact ⟨b, hb.mem b hr, i, hi, rfl⟩
  · exact ⟨b, hb.active.1, i, hi, rfl⟩

/-- Slots that were given are apart. -/
theorem Given.apart (h : Given L given replaced base k) (hb : Buffers L bufs replaced base) (hs : s ∈ given)
    (hs' : s' ∈ given) (hne : s ≠ s') : s + L.width ≤ s' ∨ s' + L.width ≤ s := by
  obtain ⟨b, hbuf, i, hi, rfl⟩ := h.buffer hb hs
  obtain ⟨b', hbuf', j, hj, rfl⟩ := h.buffer hb hs'
  exact hb.slot_apart hbuf hbuf' hi hj hne

/-- The next slot was not given before. -/
theorem Given.new (h : Given L given replaced base k) (hb : Buffers L bufs replaced base) (hk : k < L.size) :
    L.slot base k ∉ given := by
  intro hs
  obtain ⟨i, hi, b, heq, hr | ⟨rfl, hik⟩⟩ := (h.mem _).mp hs
  · have := hb.slot_buffer hb.active.1 (hb.mem b hr) hk hi heq
    exact hb.active.2 (this ▸ hr)
  · have := L.slot_inj heq
    omega

/-- It is given. -/
theorem Given.give (h : Given L given replaced base k) (hb : Buffers L bufs replaced base) (hk : k < L.size) :
    Given L (given ++ [L.slot base k]) replaced base (k + 1) where
  mem := fun s => by
    rw [List.mem_append, h.mem, List.mem_singleton]
    constructor
    · rintro (⟨i, hi, b, hs, hr | ⟨hbase, hik⟩⟩ | hs)
      · exact ⟨i, hi, b, hs, Or.inl hr⟩
      · exact ⟨i, hi, b, hs, Or.inr ⟨hbase, by omega⟩⟩
      · exact ⟨k, hk, base, hs, Or.inr ⟨rfl, by omega⟩⟩
    · rintro ⟨i, hi, b, hs, hr | ⟨hbase, hik⟩⟩
      · exact Or.inl ⟨i, hi, b, hs, Or.inl hr⟩
      · by_cases hlast : i = k
        · exact Or.inr (by rw [hs, hbase, hlast])
        · exact Or.inl ⟨i, hi, b, hs, Or.inr ⟨hbase, by omega⟩⟩
  nodup := h.nodup.append (List.nodup_singleton _) (by simpa using h.new hb hk)

/-- A full buffer gives nothing more. -/
theorem Given.full (h : Given L given replaced base k) {j : Nat} (hk : L.size ≤ k) (hj : L.size ≤ j) :
    Given L given replaced base j where
  mem := fun s => by
    rw [h.mem]
    constructor
    · rintro ⟨i, hi, b, hs, hr | ⟨hbase, -⟩⟩
      · exact ⟨i, hi, b, hs, Or.inl hr⟩
      · exact ⟨i, hi, b, hs, Or.inr ⟨hbase, by omega⟩⟩
    · rintro ⟨i, hi, b, hs, hr | ⟨hbase, -⟩⟩
      · exact ⟨i, hi, b, hs, Or.inl hr⟩
      · exact ⟨i, hi, b, hs, Or.inr ⟨hbase, by omega⟩⟩
  nodup := h.nodup

/-- The exchange of a full buffer. -/
theorem Given.exchange (h : Given L given replaced base k) (hk : L.size ≤ k) :
    Given L given (replaced ++ [base]) a 0 where
  mem := fun s => by
    rw [h.mem]
    constructor
    · rintro ⟨i, hi, b, hs, hr | ⟨hbase, -⟩⟩
      · exact ⟨i, hi, b, hs, Or.inl (List.mem_append_left _ hr)⟩
      · exact ⟨i, hi, b, hs, Or.inl (by simp [hbase])⟩
    · rintro ⟨i, hi, b, hs, hr | ⟨-, hlt⟩⟩
      · rcases List.mem_append.mp hr with hr | hr
        · exact ⟨i, hi, b, hs, Or.inl hr⟩
        · exact ⟨i, hi, b, hs, Or.inr ⟨List.mem_singleton.mp hr, by omega⟩⟩
      · exact absurd hlt (Nat.not_lt_zero i)
  nodup := h.nodup

/-- All slots of a replaced buffer were given. -/
theorem Given.whole (h : Given L given replaced base k) (hb : b ∈ replaced) (hi : i < L.size) :
    L.slot b i ∈ given := (h.mem _).mpr ⟨i, hi, b, rfl, Or.inl hb⟩

end Buffers

/-! ## Memory -/

section Memory

variable {mem mem' : Nat → UInt8} {calls : List (Record L)} {copied : List (Nat × Nat)} {g : Shared L} {rec : Record L}
  {s x a j : Nat}

theorem Holds.of_eq (h : Holds mem s rec) (heq : ∀ x, s ≤ x → x < s + L.width → mem' x = mem x) : Holds mem' s rec :=
  fun i => by
    rw [heq _ (Nat.le_add_right _ _) (Nat.add_lt_add_left i.isLt s)]
    exact h i

theorem Shared.memcpy_holds : Holds (g.memcpy s rec).mem s rec := fun i => by
  simp [Shared.memcpy, i.isLt]

theorem Shared.memcpy_other (h : x < s ∨ s + L.width ≤ x) : (g.memcpy s rec).mem x = g.mem x := by
  have hx : ¬ (s ≤ x ∧ x - s < L.width) := by omega
  simp [Shared.memcpy, hx]

theorem Shared.alloc_other (h : x < a ∨ a + L.max ≤ x) : (g.allocTraceBuffer a).mem x = g.mem x := by
  have hx : ¬ (a ≤ x ∧ x < a + L.max) := by omega
  simp [Shared.allocTraceBuffer, hx]

/-- Memory changes, but not where records were copied to. -/
theorem Copies.of_mem (h : Copies mem calls copied)
    (heq : ∀ p ∈ copied, ∀ x, p.2 ≤ x → x < p.2 + L.width → mem' x = mem x) : Copies mem' calls copied where
  holds := fun p hp => by
    obtain ⟨rec, hcall, hmem⟩ := h.holds p hp
    exact ⟨rec, hcall, hmem.of_eq (heq p hp)⟩
  once := h.once
  own := h.own

/-- There is a new call. -/
theorem Copies.call (h : Copies mem calls copied) (rec : Record L) : Copies mem (calls ++ [rec]) copied where
  holds := fun p hp => by
    obtain ⟨r, hcall, hmem⟩ := h.holds p hp
    exact ⟨r, List.getElem?_append_left (List.getElem?_eq_some_iff.mp hcall).1 ▸ hcall, hmem⟩
  once := h.once
  own := h.own

/-- The record of a call was copied to a slot. -/
theorem Copies.copy (h : Copies mem calls copied) (hcall : calls[j]? = some rec) (hmem : Holds mem s rec)
    (hj : j ∉ copied.map Prod.fst) (hs : s ∉ copied.map Prod.snd) : Copies mem calls (copied ++ [(j, s)]) where
  holds := fun p hp => by
    rcases List.mem_append.mp hp with hp | hp
    · exact h.holds p hp
    · obtain rfl := List.mem_singleton.mp hp
      exact ⟨rec, hcall, hmem⟩
  once := by
    rw [List.map_append]
    exact h.once.append (List.nodup_singleton j) (by simpa using hj)
  own := by
    rw [List.map_append]
    exact h.own.append (List.nodup_singleton s) (by simpa using hs)

end Memory

/-! ## Threads -/

/-- The call that a thread is in. -/
def Pc.call : Pc → Option Nat
  | .idle => none
  | .fetch call | .init call _ | .exchange call _ _ | .node call _ | .count call _ | .link call _ _ | .copy call _ =>
    some call

/-- The slot that it was given. -/
def Pc.slot : Pc → Option Nat
  | .copy _ cptr => some cptr
  | _ => none

/-- The buffer that it enqueues. -/
def Pc.buffer : Pc → Option Nat
  | .node _ buffer | .count _ buffer | .link _ buffer _ => some buffer
  | _ => none

/-- The same, until it is counted. -/
def Pc.uncounted : Pc → Option Nat
  | .node _ buffer | .count _ buffer => some buffer
  | _ => none

/-- It replaces the active buffer. -/
def Pc.replaces : Pc → Option Unit
  | .init _ _ | .exchange _ _ _ => some ()
  | _ => none

/-- What a thread knows of the active buffer at `base`, of which `k` slots or more were asked for, and of the list head:
one that replaces the buffer has seen its end. -/
def Pc.Ok (L : Layout) (bufs replaced : List Nat) (base k head : Nat) : Pc → Prop
  | .init _ cptr => cptr = base + L.max ∧ L.size < k
  | .exchange _ cptr newbuf =>
    cptr = base + L.max ∧ L.size < k ∧ ∃ a ∈ bufs, a ∉ replaced ∧ a ≠ base ∧ newbuf = L.word a 0
  | .link _ _ tbh => tbh = head
  | _ => True

/-- The active buffer is at `base`, and `fetch_add` has advanced its pointer `k` times. -/
structure Conf.Inv {τ : Type*} (c : Conf τ L) (base k head : Nat) : Prop where
  active : c.g.active = L.word base k
  low : L.slot base k < 2 ^ 32
  header : c.g.head = head * 2 ^ 32 + c.g.counted.length
  headed : 0 < head ∧ head < 2 ^ 32
  bufs : Buffers L c.g.bufs c.g.replaced base
  given : Given L c.g.given c.g.replaced base k
  copies : Copies c.g.mem c.g.calls c.g.copied
  counted : c.g.counted.Nodup
  queued : (c.g.queue ++ c.g.dropped).Nodup
  ignored : c.g.ignored = []
  calls : Carried Pc.call c.pc (· < c.g.calls.length) fun j => j ∈ c.g.copied.map Prod.fst ∨ j ∈ c.g.thrown
  slots : Carried Pc.slot c.pc (· ∈ c.g.given) (· ∈ c.g.copied.map Prod.snd)
  nodes : Carried Pc.buffer c.pc (· ∈ c.g.replaced) fun b => b ∈ c.g.queue ∨ b ∈ c.g.dropped
  counts : Carried Pc.uncounted c.pc (· ∈ c.g.replaced) fun b => b ∈ c.g.counted ∨ b ∈ c.g.dropped
  sole : Sole Pc.replaces c.pc
  ok : ∀ t, (c.pc t).Ok L c.g.bufs c.g.replaced base k head

section Steps

variable {bufs bufs' replaced replaced' : List Nat} {base base' k k' head : Nat} {q : Pc}

/-- More was asked for, or allocated. -/
theorem Pc.Ok.mono (h : q.Ok L bufs replaced base k head) (hk : k ≤ k') (hbufs : ∀ b ∈ bufs, b ∈ bufs') :
    q.Ok L bufs' replaced base k' head := by
  cases q with
  | init call cptr => exact ⟨h.1, h.2.trans_le hk⟩
  | exchange call cptr newbuf =>
    obtain ⟨hcptr, hsize, a, ha, hr, hne, hword⟩ := h
    exact ⟨hcptr, hsize.trans_le hk, a, hbufs a ha, hr, hne, hword⟩
  | link call buffer tbh => exact h
  | _ => trivial

/-- A thread that replaces nothing knows nothing of the buffers. -/
theorem Pc.Ok.of_none (h : q.Ok L bufs replaced base k head) (hq : q.replaces = none) :
    q.Ok L bufs' replaced' base' k' head := by
  cases q with
  | init call cptr => cases hq
  | exchange call cptr newbuf => cases hq
  | link call buffer tbh => exact h
  | _ => trivial

variable {τ : Type*} {c : Conf τ L} {t : τ} {call cptr : Nat}

/-- There are fewer counted buffers than addresses. -/
theorem Buffers.length_lt {l : List Nat} (h : Buffers L bufs replaced base) (hl : l.Nodup)
    (hsub : ∀ b ∈ l, b ∈ bufs) : l.length < 2 ^ 32 := by
  have hrange : l ⊆ List.range' 1 (2 ^ 32 - 1) := fun b hb => by
    have hfits := h.fits b (hsub b hb)
    rw [List.mem_range'_1]
    omega
  have hle := (hl.subperm hrange).length_le
  rw [List.length_range'] at hle
  omega

/-- The slots that records were copied to are given. -/
theorem Conf.Inv.copied_given (h : c.Inv base k head) {p : Nat × Nat} (hp : p ∈ c.g.copied) : p.2 ∈ c.g.given :=
  h.slots.given_of _ (List.mem_map_of_mem hp)

variable [DecidableEq τ]

theorem Pc.ok_update {pc : τ → Pc} (hq : q.Ok L bufs replaced base k head)
    (h : ∀ u, u ≠ t → (pc u).Ok L bufs replaced base k head) :
    ∀ u, (Function.update pc t q u).Ok L bufs replaced base k head :=
  (Function.forall_update_iff pc fun _ p => p.Ok L bufs replaced base k head).mpr ⟨hq, h⟩

/-- A call begins. -/
theorem Conf.Inv.enter (h : c.Inv base k head) (hpc : c.pc t = .idle) (rec : Record L) (sec : Nat) :
    Conf.Inv ⟨{ c.g with ts := sec, calls := c.g.calls ++ [rec] },
      Function.update c.pc t (.fetch c.g.calls.length)⟩ base k head :=
  { h with
    copies := h.copies.call rec
    calls := h.calls.take (by rw [hpc]; rfl) rfl (Nat.lt_irrefl _) (fun x => by
      rw [List.length_append, List.length_singleton]
      omega)
    slots := h.slots.keep (by rw [hpc]; rfl)
    nodes := h.nodes.keep (by rw [hpc]; rfl)
    counts := h.counts.keep (by rw [hpc]; rfl)
    sole := h.sole.keep (by simp [Pc.replaces])
    ok := Pc.ok_update trivial fun u _ => h.ok u }

/-- The `fetch_add` advances the pointer, and the thread goes on past the end. -/
theorem Conf.Inv.advance (h : c.Inv base k head) (hroom : L.slot base k + L.width < 2 ^ 32)
    (hpc : c.pc t = .fetch call) (hcall : q.call = some call) (hslot : q.slot = none) (hbuffer : q.buffer = none)
    (hcount : q.uncounted = none) (hsize : L.size ≤ k)
    (hq : q.replaces = some () → k = L.size ∧ q.Ok L c.g.bufs c.g.replaced base (k + 1) head)
    (hlink : q.replaces = none → q.Ok L c.g.bufs c.g.replaced base (k + 1) head) :
    Conf.Inv ⟨{ c.g with active := (c.g.active + L.width) % 2 ^ 64 }, Function.update c.pc t q⟩ base (k + 1) head :=
  { h with
    active := by
      rw [h.active]
      exact L.word_add (h.bufs.fits base h.bufs.active.1).2 hroom
    low := by
      rw [Layout.slot_succ]
      exact hroom
    given := h.given.full hsize (by omega)
    calls := h.calls.keep (by rw [hpc, hcall]; rfl)
    slots := h.slots.keep (by rw [hpc, hslot]; rfl)
    nodes := h.nodes.keep (by rw [hpc, hbuffer]; rfl)
    counts := h.counts.keep (by rw [hpc, hcount]; rfl)
    sole := h.sole.update fun x hx u _ hu => by
      -- a thread that replaces the buffer already has seen more
      obtain ⟨rfl, -⟩ := hq hx
      have hok := h.ok u
      cases hup : c.pc u with
      | init call cptr =>
        rw [hup] at hok
        exact absurd hok.2 (Nat.lt_irrefl _)
      | exchange call cptr newbuf =>
        rw [hup] at hok
        exact absurd hok.2.1 (Nat.lt_irrefl _)
      | _ =>
        rw [hup] at hu
        cases hu
    ok := by
      refine Pc.ok_update ?_ fun u _ => (h.ok u).mono (Nat.le_succ k) fun _ hb => hb
      cases hr : q.replaces with
      | none => exact hlink hr
      | some u => exact (hq hr).2 }

/-- The `fetch_add` gives a slot. -/
theorem Conf.Inv.give (h : c.Inv base k head) (hroom : L.slot base k + L.width < 2 ^ 32) (hsize : k < L.size)
    (hpc : c.pc t = .fetch call) :
    Conf.Inv ⟨{ c.g with active := (c.g.active + L.width) % 2 ^ 64, given := c.g.given ++ [L.slot base k] },
      Function.update c.pc t (.copy call (L.slot base k))⟩ base (k + 1) head :=
  { h with
    active := by
      rw [h.active]
      exact L.word_add (h.bufs.fits base h.bufs.active.1).2 hroom
    low := by
      rw [Layout.slot_succ]
      exact hroom
    given := h.given.give h.bufs hsize
    calls := h.calls.keep (by rw [hpc]; rfl)
    slots := h.slots.take (by rw [hpc]; rfl) rfl (h.given.new h.bufs hsize) (by simp)
    nodes := h.nodes.keep (by rw [hpc]; rfl)
    counts := h.counts.keep (by rw [hpc]; rfl)
    sole := h.sole.keep (by simp [Pc.replaces])
    ok := Pc.ok_update trivial fun u _ => (h.ok u).mono (Nat.le_succ k) fun _ hb => hb }

/-- What the `fetch_add` finds: the end of the buffer, a slot, or a pointer past the end. -/
theorem Shared.fetch_cases {g : Shared L} (hactive : g.active = L.word base k) (hlow : L.slot base k < 2 ^ 32)
    {s : Shared L × Pc} (hs : g.addEntry (.fetch call) .run = some s) :
    k = L.size ∧ s = ({ g with active := (g.active + L.width) % 2 ^ 64 }, .init call (base + L.max)) ∨
      k < L.size ∧ s = ({ g with active := (g.active + L.width) % 2 ^ 64, given := g.given ++ [L.slot base k] },
        .copy call (L.slot base k)) ∨
      L.size < k ∧ s = ({ g with active := (g.active + L.width) % 2 ^ 64 }, .fetch call) := by
  have hcptr : g.active &&& tbCurrPtrMask = L.slot base k := by rw [hactive, L.word_low hlow]
  have hmptr : g.active >>> tbShift = L.slot base L.size := by rw [hactive, L.word_high hlow, Layout.slot_size]
  simp only [Shared.addEntry, hcptr, hmptr] at hs
  split_ifs at hs with hend hlt <;> obtain rfl := Option.some.inj hs
  · refine Or.inl ⟨L.slot_inj hend, ?_⟩
    rw [hend, Layout.slot_size]
  · refine Or.inr (Or.inl ⟨?_, rfl⟩)
    by_contra hge
    exact absurd (Layout.slot_le_iff.mpr (Nat.le_of_not_lt hge)) (Nat.not_le_of_lt hlt)
  · refine Or.inr (Or.inr ⟨?_, rfl⟩)
    by_contra hle
    exact hend (Nat.le_antisymm (Layout.slot_le_iff.mpr (Nat.le_of_not_lt hle)) (Nat.le_of_not_lt hlt))

/-- The `fetch_add`. -/
theorem Conf.Inv.fetch (h : c.Inv base k head) (hroom : L.slot base k + L.width < 2 ^ 32)
    (hpc : c.pc t = .fetch call) {s : Shared L × Pc} (hs : c.g.addEntry (.fetch call) .run = some s) :
    Conf.Inv ⟨s.1, Function.update c.pc t s.2⟩ base (k + 1) head := by
  rcases Shared.fetch_cases h.active h.low hs with ⟨rfl, rfl⟩ | ⟨hk, rfl⟩ | ⟨hk, rfl⟩
  · exact h.advance hroom hpc rfl rfl rfl rfl le_rfl (fun _ => ⟨rfl, rfl, Nat.lt_succ_self _⟩) (by simp [Pc.replaces])
  · exact h.give hroom hk hpc
  · exact h.advance hroom hpc rfl rfl rfl rfl hk.le (by simp [Pc.replaces]) fun _ => trivial

/-- The allocation of the new buffer fails. -/
theorem Conf.Inv.throw (h : c.Inv base k head) (hpc : c.pc t = .init call cptr) :
    Conf.Inv ⟨{ c.g with thrown := c.g.thrown ++ [call] }, Function.update c.pc t .idle⟩ base k head :=
  { h with
    calls := h.calls.settle (by rw [hpc]; rfl) rfl fun x => by
      rw [List.mem_append, List.mem_singleton, or_assoc]
    slots := h.slots.keep (by rw [hpc]; rfl)
    nodes := h.nodes.keep (by rw [hpc]; rfl)
    counts := h.counts.keep (by rw [hpc]; rfl)
    sole := h.sole.keep (by simp [Pc.replaces])
    ok := Pc.ok_update trivial fun u _ => h.ok u }

/-- It succeeds. -/
theorem Conf.Inv.alloc (h : c.Inv base k head) (hpc : c.pc t = .init call cptr) {a : Nat} (ha : c.g.Fresh a) :
    Conf.Inv ⟨c.g.allocTraceBuffer a, Function.update c.pc t (.exchange call cptr (L.traceBuf a))⟩ base k head :=
  { h with
    bufs := h.bufs.alloc ha
    copies := h.copies.of_mem fun p hp x hlo hhi => by
      obtain ⟨b, hb, i, hi, hslot⟩ := h.given.buffer h.bufs (h.copied_given hp)
      have hend := L.slot_lt (b := b) hi
      have hle : b ≤ L.slot b i := Nat.le_add_right _ _
      rw [Layout.slot_size] at hend
      refine Shared.alloc_other ?_
      rcases ha.2.2.2 b hb with hap | hap <;> omega
    calls := h.calls.keep (by rw [hpc]; rfl)
    slots := h.slots.keep (by rw [hpc]; rfl)
    nodes := h.nodes.keep (by rw [hpc]; rfl)
    counts := h.counts.keep (by rw [hpc]; rfl)
    sole := h.sole.keep fun _ _ => by rw [hpc]; rfl
    ok := by
      have hok := h.ok t
      rw [hpc] at hok
      refine Pc.ok_update ⟨hok.1, hok.2, a, List.mem_append_right _ (List.mem_singleton.mpr rfl), fun hr => ?_,
        fun heq => ?_, L.traceBuf_eq ha.2.1⟩ fun u _ => (h.ok u).mono le_rfl fun _ hb => List.mem_append_left _ hb
      · exact ha.2.2.1 (h.bufs.mem a hr)
      · exact ha.2.2.1 (heq ▸ h.bufs.active.1) }

/-- The exchange, by the one thread that replaces the buffer. -/
theorem Conf.Inv.exchange (h : c.Inv base k head) {newbuf : Nat} (hpc : c.pc t = .exchange call cptr newbuf) :
    ∃ a, Conf.Inv ⟨{ c.g with
        active := newbuf, replaced := c.g.replaced ++ [sub32 (c.g.active >>> tbShift) L.max] },
      Function.update c.pc t (.node call (sub32 cptr L.max))⟩ a 0 head := by
  have hok := h.ok t
  rw [hpc] at hok
  obtain ⟨rfl, hsize, a, ha, hr, hne, rfl⟩ := hok
  have hfits := (h.bufs.fits base h.bufs.active.1).2
  have hold : sub32 (c.g.active >>> tbShift) L.max = base := by
    rw [h.active, L.word_base hfits h.low]
  rw [hold, sub32_add hfits]
  refine ⟨a, { h with
    active := rfl
    low := ?_
    bufs := h.bufs.exchange ha hr hne
    given := h.given.exchange hsize.le
    calls := h.calls.keep (by rw [hpc]; rfl)
    slots := h.slots.keep (by rw [hpc]; rfl)
    nodes := h.nodes.take (by rw [hpc]; rfl) rfl h.bufs.active.2 (by simp)
    counts := h.counts.take (by rw [hpc]; rfl) rfl h.bufs.active.2 (by simp)
    sole := h.sole.keep (by simp [Pc.replaces])
    ok := Pc.ok_update trivial fun u hu => (h.ok u).of_none ?_ }⟩
  · have := (h.bufs.fits a ha).2
    rw [Layout.slot_zero]
    omega
  · cases hrep : (c.pc u).replaces with
    | none => rfl
    | some x => exact absurd (h.sole u t x hrep (by rw [hpc]; rfl)) hu

/-- There is no node for the buffer. -/
theorem Conf.Inv.drop (h : c.Inv base k head) {buffer : Nat} (hpc : c.pc t = .node call buffer) :
    Conf.Inv ⟨{ c.g with dropped := c.g.dropped ++ [buffer] }, Function.update c.pc t (.fetch call)⟩ base k head :=
  have hnew := (h.nodes.carried t buffer (by rw [hpc]; rfl)).2
  { h with
    queued := by
      rw [← List.append_assoc]
      exact h.queued.append (List.nodup_singleton buffer) (by simpa using hnew)
    calls := h.calls.keep (by rw [hpc]; rfl)
    slots := h.slots.keep (by rw [hpc]; rfl)
    nodes := h.nodes.settle (by rw [hpc]; rfl) rfl fun x => by
      rw [List.mem_append, List.mem_singleton, or_assoc]
    counts := h.counts.settle (by rw [hpc]; rfl) rfl fun x => by
      rw [List.mem_append, List.mem_singleton, or_assoc]
    sole := h.sole.keep (by simp [Pc.replaces])
    ok := Pc.ok_update trivial fun u _ => h.ok u }

/-- There is one. -/
theorem Conf.Inv.alloc_node (h : c.Inv base k head) {buffer : Nat} (hpc : c.pc t = .node call buffer) :
    Conf.Inv ⟨c.g, Function.update c.pc t (.count call buffer)⟩ base k head :=
  { h with
    calls := h.calls.keep (by rw [hpc]; rfl)
    slots := h.slots.keep (by rw [hpc]; rfl)
    nodes := h.nodes.keep (by rw [hpc]; rfl)
    counts := h.counts.keep (by rw [hpc]; rfl)
    sole := h.sole.keep (by simp [Pc.replaces])
    ok := Pc.ok_update trivial fun u _ => h.ok u }

/-- The buffer is counted in `_head`, where the count stays below the address of the list head. -/
theorem Conf.Inv.count (h : c.Inv base k head) {buffer : Nat} (hpc : c.pc t = .count call buffer) :
    Conf.Inv ⟨{ c.g with head := (c.g.head + 1) % 2 ^ 64, counted := c.g.counted ++ [buffer] },
      Function.update c.pc t (.link call buffer (c.g.head >>> tbShift))⟩ base k head := by
  obtain ⟨hmem, hnew⟩ := h.counts.carried t buffer (by rw [hpc]; rfl)
  have hnodup : (c.g.counted ++ [buffer]).Nodup :=
    h.counted.append (List.nodup_singleton buffer) (by simpa using fun hb => hnew (Or.inl hb))
  have hlen := h.bufs.length_lt hnodup fun b hb => h.bufs.mem b <| by
    rcases List.mem_append.mp hb with hb | hb
    · exact h.counts.given_of b (Or.inl hb)
    · rw [List.mem_singleton.mp hb]
      exact hmem
  rw [List.length_append, List.length_singleton] at hlen
  have hheaded := h.headed
  exact { h with
    header := by
      change (c.g.head + 1) % 2 ^ 64 = head * 2 ^ 32 + (c.g.counted ++ [buffer]).length
      rw [h.header, List.length_append, List.length_singleton]
      omega
    counted := hnodup
    calls := h.calls.keep (by rw [hpc]; rfl)
    slots := h.slots.keep (by rw [hpc]; rfl)
    nodes := h.nodes.keep (by rw [hpc]; rfl)
    counts := h.counts.settle (by rw [hpc]; rfl) rfl fun x => by
      rw [List.mem_append, List.mem_singleton, or_right_comm]
    sole := h.sole.keep (by simp [Pc.replaces])
    ok := by
      refine Pc.ok_update ?_ fun u _ => h.ok u
      change c.g.head >>> tbShift = head
      rw [shift_eq, h.header]
      omega }

/-- The buffer is enqueued. -/
theorem Conf.Inv.link (h : c.Inv base k head) {buffer tbh : Nat} (hpc : c.pc t = .link call buffer tbh) :
    Conf.Inv ⟨{ c.g with queue := c.g.queue ++ [buffer] }, Function.update c.pc t (.fetch call)⟩ base k head :=
  have hnew := (h.nodes.carried t buffer (by rw [hpc]; rfl)).2
  { h with
    queued := by
      have hperm : (c.g.queue ++ [buffer] ++ c.g.dropped).Perm (c.g.queue ++ c.g.dropped ++ [buffer]) := by
        rw [List.append_assoc, List.append_assoc]
        exact List.Perm.append_left _ List.perm_append_comm
      refine hperm.nodup_iff.mpr ?_
      exact h.queued.append (List.nodup_singleton buffer) (by simpa using hnew)
    calls := h.calls.keep (by rw [hpc]; rfl)
    slots := h.slots.keep (by rw [hpc]; rfl)
    nodes := h.nodes.settle (by rw [hpc]; rfl) rfl fun x => by
      rw [List.mem_append, List.mem_singleton, or_right_comm]
    counts := h.counts.keep (by rw [hpc]; rfl)
    sole := h.sole.keep (by simp [Pc.replaces])
    ok := Pc.ok_update trivial fun u _ => h.ok u }

/-- The record is copied, to a slot that no other record was or is copied to. -/
theorem Conf.Inv.copy (h : c.Inv base k head) (hpc : c.pc t = .copy call cptr) {rec : Record L}
    (hrec : c.g.calls[call]? = some rec) :
    Conf.Inv ⟨{ c.g.memcpy cptr rec with copied := c.g.copied ++ [(call, cptr)] }, Function.update c.pc t .idle⟩
      base k head :=
  have hcall := h.calls.carried t call (by rw [hpc]; rfl)
  have hslot := h.slots.carried t cptr (by rw [hpc]; rfl)
  { h with
    copies := by
      refine (h.copies.of_mem fun p hp x hlo hhi => Shared.memcpy_other ?_).copy hrec Shared.memcpy_holds
        (fun hj => hcall.2 (Or.inl hj)) hslot.2
      have hne : p.2 ≠ cptr := fun heq => hslot.2 (heq ▸ List.mem_map_of_mem hp)
      rcases h.given.apart h.bufs (h.copied_given hp) hslot.1 hne with hap | hap <;> omega
    calls := h.calls.settle (by rw [hpc]; rfl) rfl fun x => by
      simp only [Shared.memcpy, List.map_append, List.map_cons, List.map_nil, List.mem_append, List.mem_singleton]
      exact or_right_comm
    slots := h.slots.settle (by rw [hpc]; rfl) rfl fun x => by
      simp only [List.map_append, List.map_cons, List.map_nil, List.mem_append, List.mem_singleton]
    nodes := h.nodes.keep (by rw [hpc]; rfl)
    counts := h.counts.keep (by rw [hpc]; rfl)
    sole := h.sole.keep (by simp [Pc.replaces])
    ok := Pc.ok_update trivial fun u _ => h.ok u }

/-- **One step keeps the invariant**, as long as there is room. -/
theorem Conf.Inv.step (h : c.Inv base k head) {e : τ × Move L} (hroom : c.Room e) {s : Conf τ L}
    (hs : c.step e = some s) : ∃ a j, s.Inv a j head := by
  obtain ⟨t, move⟩ := e
  obtain ⟨p, hp, rfl⟩ := Option.map_eq_some_iff.mp hs
  simp only at hp ⊢
  cases hpc : c.pc t with
  | idle =>
    cases move with
    | enter rec sec =>
      simp only [hpc, Shared.addEntry, Option.some.injEq] at hp
      subst hp
      exact ⟨base, k, h.enter hpc rec sec⟩
    | _ => simp [hpc, Shared.addEntry] at hp
  | fetch call =>
    cases move with
    | run =>
      have hlow : L.slot base k + L.width < 2 ^ 32 := by
        have := hroom (by rw [hpc]; rfl)
        rwa [h.active, L.word_low h.low] at this
      rw [hpc] at hp
      exact ⟨base, k + 1, h.fetch hlow hpc hp⟩
    | _ => simp [hpc, Shared.addEntry] at hp
  | init call cptr =>
    cases move with
    | new ptr =>
      cases ptr with
      | none =>
        simp only [hpc, Shared.addEntry, Option.some.injEq] at hp
        subst hp
        exact ⟨base, k, h.throw hpc⟩
      | some a =>
        simp only [hpc, Shared.addEntry] at hp
        split_ifs at hp with ha
        obtain rfl := Option.some.inj hp
        exact ⟨base, k, h.alloc hpc ha⟩
    | _ => simp [hpc, Shared.addEntry] at hp
  | exchange call cptr newbuf =>
    cases move with
    | run =>
      simp only [hpc, Shared.addEntry, Option.some.injEq] at hp
      subst hp
      obtain ⟨a, ha⟩ := h.exchange hpc
      exact ⟨a, 0, ha⟩
    | _ => simp [hpc, Shared.addEntry] at hp
  | node call buffer =>
    cases move with
    | malloc ok =>
      simp only [hpc, Shared.addEntry] at hp
      split_ifs at hp with hok <;> obtain rfl := Option.some.inj hp
      · exact ⟨base, k, h.alloc_node hpc⟩
      · exact ⟨base, k, h.drop hpc⟩
    | _ => simp [hpc, Shared.addEntry] at hp
  | count call buffer =>
    cases move with
    | run =>
      simp only [hpc, Shared.addEntry, Option.some.injEq] at hp
      subst hp
      exact ⟨base, k, h.count hpc⟩
    | _ => simp [hpc, Shared.addEntry] at hp
  | link call buffer tbh =>
    cases move with
    | run =>
      have hok := h.ok t
      have hheaded := h.headed
      rw [hpc] at hok
      simp only [hpc, Shared.addEntry] at hp
      split_ifs at hp with hnull <;> obtain rfl := Option.some.inj hp
      · -- there is a list head
        exact absurd (hok.symm.trans hnull) (by omega)
      · exact ⟨base, k, h.link hpc⟩
    | _ => simp [hpc, Shared.addEntry] at hp
  | copy call cptr =>
    cases move with
    | run =>
      simp only [hpc, Shared.addEntry] at hp
      split at hp
      · rename_i rec hrec
        obtain rfl := Option.some.inj hp
        exact ⟨base, k, h.copy hpc hrec⟩
      · cases hp
    | _ => simp [hpc, Shared.addEntry] at hp

omit [DecidableEq τ] in
theorem Conf.Started.inv (h : c.Started) : ∃ base k head, c.Inv base k head := by
  obtain ⟨hidle, buf, head, ts, mem, hbuf, hhead, hg⟩ := h
  refine ⟨buf, 0, head, ?_⟩
  constructor
  case active => simp only [hg, Shared.tracer, L.traceBuf_eq hbuf.2]
  case low => rw [Layout.slot_zero]; omega
  case header => simp only [hg, Shared.tracer, traceHead_eq, List.length_nil, Nat.add_zero]
  case headed => exact hhead
  case bufs =>
    rw [hg]
    exact Buffers.single hbuf
  case given =>
    rw [hg]
    exact ⟨fun s => by simp [Shared.tracer], List.nodup_nil⟩
  case copies =>
    rw [hg]
    exact ⟨fun p hp => absurd hp List.not_mem_nil, List.nodup_nil, List.nodup_nil⟩
  case counted => rw [hg]; exact List.nodup_nil
  case queued => rw [hg]; exact List.nodup_nil
  case ignored => rw [hg]; rfl
  case calls => exact Carried.of_none (fun t => by rw [hidle t]; rfl) (by simp [hg, Shared.tracer])
  case slots => exact Carried.of_none (fun t => by rw [hidle t]; rfl) (by simp [hg, Shared.tracer])
  case nodes => exact Carried.of_none (fun t => by rw [hidle t]; rfl) (by simp [hg, Shared.tracer])
  case counts => exact Carried.of_none (fun t => by rw [hidle t]; rfl) (by simp [hg, Shared.tracer])
  case sole => exact Sole.of_none fun t => by rw [hidle t]; rfl
  case ok => exact fun t => by rw [hidle t]; trivial

/-! ## What callers get -/

/-- Every record is copied to its own slot, and every replaced buffer is enqueued once, when it is full. -/
structure Conf.Exact {τ : Type*} (c : Conf τ L) : Prop where
  /-- A slot that was handed out is one of an allocated buffer. -/
  buffer : ∀ s ∈ c.g.given, ∃ b ∈ c.g.bufs, ∃ i < L.size, s = L.slot b i
  /-- No slot was handed out twice, and different ones share no byte. -/
  given : c.g.given.Nodup
  apart : ∀ s ∈ c.g.given, ∀ s' ∈ c.g.given, s ≠ s' → s + L.width ≤ s' ∨ s' + L.width ≤ s
  /-- A record that was copied is in a slot that was handed out, and no other record was copied there. -/
  copied : ∀ p ∈ c.g.copied, p.2 ∈ c.g.given ∧ ∃ rec, c.g.calls[p.1]? = some rec ∧ Holds c.g.mem p.2 rec
  own : (c.g.copied.map Prod.snd).Nodup
  /-- A call copies its record once, unless it ended with an exception or a thread is still in it. -/
  once : (c.g.copied.map Prod.fst).Nodup
  called : ∀ j < c.g.calls.length,
    j ∈ c.g.copied.map Prod.fst ∨ j ∈ c.g.thrown ∨ ∃ t, (c.pc t).call = some j
  /-- A replaced buffer is enqueued once, by its base address, unless its node cannot be allocated or a thread is still
  at it. -/
  replaced : c.g.replaced.Nodup ∧ ∀ b ∈ c.g.replaced, b ∈ c.g.bufs
  queued : (c.g.queue ++ c.g.dropped).Nodup ∧ ∀ b ∈ c.g.queue ++ c.g.dropped, b ∈ c.g.replaced
  placed : ∀ b ∈ c.g.replaced, b ∈ c.g.queue ∨ b ∈ c.g.dropped ∨ ∃ t, (c.pc t).buffer = some b
  ignored : c.g.ignored = []
  /-- All slots of an enqueued buffer were handed out. -/
  full : ∀ b ∈ c.g.queue, ∀ i < L.size, L.slot b i ∈ c.g.given

omit [DecidableEq τ] in
theorem Conf.Inv.exact (h : c.Inv base k head) : c.Exact where
  buffer := fun s hs => h.given.buffer h.bufs hs
  given := h.given.nodup
  apart := fun s hs s' hs' hne => h.given.apart h.bufs hs hs' hne
  copied := fun p hp => ⟨h.copied_given hp, h.copies.holds p hp⟩
  own := h.copies.own
  once := h.copies.once
  called := fun j hj => by
    rw [← or_assoc]
    exact h.calls.placed j hj
  replaced := ⟨h.bufs.nodup, h.bufs.mem⟩
  queued := ⟨h.queued, fun b hb => h.nodes.given_of b (List.mem_append.mp hb)⟩
  placed := fun b hb => by
    rw [← or_assoc]
    exact h.nodes.placed b hb
  ignored := h.ignored
  full := fun b hb i hi => h.given.whole (h.nodes.given_of b (Or.inl hb)) hi

/-- **Slots and buffers are handed over exactly**, in every run in which the pointer of `_active` does not overflow. -/
theorem slots_exact (h : Reach Conf.step Conf.Room Conf.Started c) : c.Exact := by
  have hinv : ∃ base k head, c.Inv base k head := by
    refine Reach.inv (I := fun c => ∃ base k head, c.Inv base k head) (fun _ hc => hc.inv) ?_ h
    rintro c e s ⟨base, k, head, hc⟩ hroom hs
    obtain ⟨a, j, ha⟩ := hc.step hroom hs
    exact ⟨a, j, head, ha⟩
  obtain ⟨base, k, head, hc⟩ := hinv
  exact hc.exact

end Steps

/-! ## Two runs -/

/-- Records of one byte, two to a buffer. -/
def pairs : Layout := ⟨1, 2, by omega, by omega⟩

/-- One to a buffer. -/
def singles : Layout := ⟨1, 1, by omega, by omega⟩

/-- A tracer with its first buffer at `0x10`. -/
def fresh (τ : Type) (L : Layout) : Conf τ L := ⟨.tracer 0x10 0x100 0 fun _ => 0, fun _ => .idle⟩

theorem fresh_started (τ : Type) {L : Layout} (h : 0x10 + L.max < 2 ^ 32) : (fresh τ L).Started :=
  ⟨fun _ => rfl, 0x10, 0x100, 0, _, ⟨by omega, h⟩, ⟨by omega, by omega⟩, rfl⟩

/-- A thread fills a buffer and replaces it, while another runs past its end and gets the first slot of the new one. -/
def overrunning : List (Bool × Move pairs) :=
  [(false, .enter (fun _ => 7) 0), (false, .run), (false, .run), (false, .enter (fun _ => 8) 0), (false, .run),
    (false, .run), (false, .enter (fun _ => 9) 1), (false, .run), (true, .enter (fun _ => 10) 1), (true, .run),
    (false, .new (some 0x20)), (false, .run), (true, .run), (false, .malloc true), (false, .run), (false, .run),
    (false, .run), (true, .run), (false, .run)]

theorem overrunning_exact :
    ∃ c, Reach Conf.step Conf.Room Conf.Started (c : Conf Bool pairs) ∧
      decide (c.g.queue = [0x10] ∧ c.g.copied = [(0, 0x10), (1, 0x11), (3, 0x20), (2, 0x21)]) = true ∧ c.Exact := by
  have hrun : ∃ c, Reach Conf.step Conf.Room Conf.Started (c : Conf Bool pairs) ∧
      decide (c.g.queue = [0x10] ∧ c.g.copied = [(0, 0x10), (1, 0x11), (3, 0x20), (2, 0x21)]) = true :=
    Reach.of_runAll (fresh_started Bool (by decide)) overrunning _ (by decide)
  obtain ⟨c, hc, hends⟩ := hrun
  exact ⟨c, hc, hends, slots_exact hc⟩

/-- The second call finds no memory for the node of the buffer that it replaces, the third none for a buffer. -/
def starving : List (Unit × Move singles) :=
  [.enter (fun _ => 7) 0, .run, .run, .enter (fun _ => 8) 0, .run, .new (some 0x20), .run, .malloc false, .run, .run,
    .enter (fun _ => 9) 1, .run, .new none].map fun move => ((), move)

/-- **A replaced buffer is not enqueued, and a record not copied**, though every call has ended. -/
theorem allocations_fail :
    ∃ c, Reach Conf.step Conf.Room Conf.Started (c : Conf Unit singles) ∧
      decide (c.pc () = .idle ∧ (0x10 ∈ c.g.replaced ∧ 0x10 ∉ c.g.queue) ∧
        c.g.calls.length = 3 ∧ 2 ∉ c.g.copied.map Prod.fst) = true :=
  Reach.of_runAll (fresh_started Unit (by decide)) starving _ (by decide)

end Cosmost.Tracer
