import Cosmost.Tracer.Flush

/-!
# What the flush thread hands over (`tracer.h`)

A record goes from `addEntry` through a slot of the active buffer to `flush`. `Drain` is a tracer with its flush thread and a
history: the calls that the slots of each buffer were given to, and what `flush` was handed.

A thread gets its slot with `fetch_add`, and copies its record later; nothing keeps the flush thread from flushing and freeing
the buffer meanwhile. `flush_whole_iff`: in a run in which no buffer is lost or replaced too early, every block that was
flushed is made of the records of as many calls as a buffer has slots, no call is flushed twice, every record that was copied
was flushed or is in its slot, and threads copy into allocated buffers, as long as no thread has still to copy into a buffer
that is flushed; and the first step that flushes such a buffer breaks this.
-/

namespace Cosmost.Tracer

open Cosmost.Lib

/-- What `flush` was handed: the bytes of a buffer; and the calls that its slots were given to, in order. -/
structure Block where
  calls : List Nat
  bytes : Nat → UInt8

/-- A tracer with its flush thread. The other fields are not part of it: for each buffer the calls that its slots were given
to, in order, and the blocks that were flushed. -/
structure Drain (τ : Type*) (L : Layout) where
  pass : Pass τ L
  owners : Nat → List Nat
  flushed : List Block

section Step

variable {τ : Type*} {L : Layout}

/-- The buffer that a step flushes. -/
def Pass.flushes (c : Pass τ L) : Event τ L → Option Nat
  | .run =>
    match c.stage with
    | .walk head => (c.lists head).head?
    | _ => none
  | _ => none

/-- What a step in `addEntry` does to the owners of the slots: one is handed out, or there is a new buffer. -/
def Pc.owned (g : Shared L) (owners : Nat → List Nat) : Pc → Move L → Nat → List Nat
  | .fetch call, .run =>
    let base := sub32 (g.active >>> tbShift) L.max
    if g.active &&& tbCurrPtrMask < g.active >>> tbShift then Function.update owners base (owners base ++ [call]) else owners
  | .init _ _, .new (some a) => Function.update owners a []
  | _, _ => owners

/-- The owners after a step. -/
def Drain.owned (d : Drain τ L) : Event τ L → Nat → List Nat
  | .add t move => (d.pass.pc t).owned d.pass.g d.owners move
  | .new (some a) =>
    match d.pass.stage with
    | .init _ => Function.update d.owners a []
    | _ => d.owners
  | _ => d.owners

/-- What `flush` is handed with the buffer at `b`. -/
def Drain.block (d : Drain τ L) (b : Nat) : Block := ⟨d.owners b, fun i => d.pass.g.mem (b + i)⟩

variable [DecidableEq τ]

/-- The next state. -/
def Drain.step (d : Drain τ L) (e : Event τ L) : Option (Drain τ L) :=
  (d.pass.step e).map fun c => ⟨c, d.owned e, d.flushed ++ ((d.pass.flushes e).map d.block).toList⟩

omit [DecidableEq τ] in
/-- A tracer that was just constructed. -/
def Drain.Started (d : Drain τ L) : Prop := d.pass.Started ∧ (∀ b, d.owners b = []) ∧ d.flushed = []

end Step

section Whole

variable {τ : Type*} {L : Layout}

/-- The block is made of the records of as many calls as a buffer has slots. -/
def Block.Made (L : Layout) (calls : List (Record L)) (f : Block) : Prop :=
  f.calls.length = L.size ∧ ∀ i call, f.calls[i]? = some call →
    ∃ rec, calls[call]? = some rec ∧ Holds f.bytes (L.slot 0 i) rec

/-- The calls that were given a slot of a buffer that is allocated, or that were flushed. -/
def Drain.placed (d : Drain τ L) : List Nat := d.pass.g.bufs.flatMap d.owners ++ d.flushed.flatMap Block.calls

/-- A call was given a slot. -/
def Drain.Has (d : Drain τ L) (call s : Nat) : Prop :=
  ∃ b ∈ d.pass.g.bufs, ∃ i, (d.owners b)[i]? = some call ∧ s = L.slot b i

/-- **No record is lost, torn or doubled.** -/
structure Drain.Whole (d : Drain τ L) : Prop where
  made : ∀ f ∈ d.flushed, f.Made L d.pass.g.calls
  /-- No call is in two places. -/
  once : d.placed.Nodup
  /-- A record that was copied was flushed, or is in its slot. -/
  kept : ∀ p ∈ d.pass.g.copied, (∃ f ∈ d.flushed, p.1 ∈ f.calls) ∨
    d.Has p.1 p.2 ∧ ∃ rec, d.pass.g.calls[p.1]? = some rec ∧ Holds d.pass.g.mem p.2 rec
  /-- A thread copies into a buffer that is allocated. -/
  inside : ∀ t, ∀ s ∈ (d.pass.pc t).slot, ∃ b ∈ d.pass.g.bufs, b ≤ s ∧ s + L.width ≤ b + L.max

/-- No thread has still to copy a record into the buffer at `b`. -/
def Pass.Settled (c : Pass τ L) (b : Nat) : Prop := ∀ t, ∀ s ∈ (c.pc t).slot, ¬ (b ≤ s ∧ s < b + L.max)

/-- No buffer is lost or replaced too early, and a buffer that is flushed is settled. -/
def Drain.Sound (d : Drain τ L) (e : Event τ L) : Prop := d.pass.Sound e ∧ ∀ b ∈ d.pass.flushes e, d.pass.Settled b

instance [Fintype τ] (c : Pass τ L) (b : Nat) : Decidable (c.Settled b) :=
  inferInstanceAs (Decidable (∀ t, ∀ s ∈ (c.pc t).slot, ¬ (b ≤ s ∧ s < b + L.max)))

instance [Fintype τ] (d : Drain τ L) (e : Event τ L) : Decidable (d.Sound e) :=
  inferInstanceAs (Decidable (_ ∧ ∀ b ∈ d.pass.flushes e, d.pass.Settled b))

end Whole

/-! ## Lists of lists -/

section Lists

variable {l : List Nat} {f : Nat → List Nat} {b x : Nat}

theorem flatMap_update (hb : b ∉ l) (v : List Nat) : l.flatMap (Function.update f b v) = l.flatMap f := by
  refine List.flatMap_congr fun a ha => Function.update_of_ne ?_ _ _
  rintro rfl
  exact hb ha

/-- One list of several gets longer. -/
theorem perm_flatMap_append (hl : l.Nodup) (hb : b ∈ l) :
    (l.flatMap (Function.update f b (f b ++ [x]))).Perm (x :: l.flatMap f) := by
  have hrest : (l.erase b).flatMap (Function.update f b (f b ++ [x])) = (l.erase b).flatMap f :=
    flatMap_update hl.not_mem_erase _
  have hnew := (List.perm_cons_erase hb).flatMap_right (Function.update f b (f b ++ [x]))
  have hold := (List.perm_cons_erase hb).flatMap_right f
  rw [List.flatMap_cons, hrest, Function.update_self] at hnew
  rw [List.flatMap_cons] at hold
  refine hnew.trans (List.Perm.trans ?_ (hold.symm.cons x))
  rw [List.append_assoc]
  exact List.perm_middle

end Lists

/-! ## The invariant -/

variable {L : Layout}

/-- The call of a thread that has no slot yet. -/
def Pc.waits : Pc → Option Nat
  | .idle | .copy _ _ => none
  | .fetch call | .init call _ | .exchange call _ _ | .node call _ | .count call _ | .link call _ _ => some call

/-- The new buffer that a thread is about to make the active one. -/
def Pc.spare (L : Layout) : Pc → Option Nat
  | .exchange _ _ newbuf => some (sub32 (newbuf >>> tbShift) L.max)
  | _ => none

/-- Slots are given to calls in order, and calls go from the threads to the slots, and from there to the blocks. -/
structure Drain.Inv {τ : Type*} (d : Drain τ L) (base k cur : Nat) : Prop where
  pass : d.pass.Inv base k cur
  calls : Carried Pc.call d.pass.pc (· < d.pass.g.calls.length) fun j =>
    j ∈ d.pass.g.copied.map Prod.fst ∨ j ∈ d.pass.g.thrown
  once : d.placed.Nodup
  bound : ∀ call ∈ d.placed, call < d.pass.g.calls.length
  waiting : ∀ t, ∀ call ∈ (d.pass.pc t).waits, call ∉ d.placed
  active : (d.owners base).length = min k L.size
  spare : ∀ t, ∀ b ∈ (d.pass.pc t).spare L, d.owners b = []
  full : ∀ b ∈ d.pass.g.bufs, b = base ∨ (∃ t, b ∈ (d.pass.pc t).spare L) ∨ (d.owners b).length = L.size
  copying : ∀ t call s, d.pass.pc t = .copy call s → d.Has call s
  written : ∀ call s, d.Has call s → (∃ t, d.pass.pc t = .copy call s) ∨
    ∃ rec, d.pass.g.calls[call]? = some rec ∧ Holds d.pass.g.mem s rec
  kept : ∀ p ∈ d.pass.g.copied, (∃ f ∈ d.flushed, p.1 ∈ f.calls) ∨ d.Has p.1 p.2
  made : ∀ f ∈ d.flushed, f.Made L d.pass.g.calls

/-- The slots and what is in them are the same; there may be new calls. -/
structure Shared.Same (g g' : Shared L) : Prop where
  bufs : g'.bufs = g.bufs
  calls : g.calls <+: g'.calls
  copied : g'.copied = g.copied
  mem : g'.mem = g.mem

section Inv

variable {τ : Type*} {d : Drain τ L} {c : Pass τ L} {t : τ} {q : Pc} {base base' k k' cur cur' call s : Nat}

theorem Pc.slot_eq_some : q.slot = some s ↔ ∃ call, q = .copy call s := by
  cases q <;> simp [Pc.slot]

/-- The word tells the buffer and how often its pointer was advanced. -/
theorem Pass.Inv.unique (h : d.pass.Inv base k cur) (h' : c.Inv base' k' cur') (hactive : c.g.active = d.pass.g.active) :
    base' = base ∧ k' = k := by
  have hbase : base' = base := by rw [← h'.base_eq, ← h.base_eq, Pass.base, Pass.base, hactive]
  subst hbase
  refine ⟨rfl, L.slot_inj (b := base') ?_⟩
  rw [← L.word_low h.low, ← L.word_low h'.low, ← h.active, ← h'.active, hactive]

/-- A spare buffer is allocated, and is neither active nor enqueued. -/
theorem Pass.Inv.spare (h : c.Inv base k cur) {b : Nat} (hb : b ∈ (c.pc t).spare L) :
    b ∈ c.g.bufs ∧ ¬ (b = base ∨ ∃ l ∈ c.heads, b ∈ c.lists l) := by
  refine h.items.carried t b ?_
  cases hpc : c.pc t with
  | exchange call cptr newbuf =>
    rw [hpc] at hb
    exact hb
  | _ => rw [hpc] at hb; cases hb

/-- No buffer has more owners than slots. -/
theorem Drain.Inv.length_le (h : d.Inv base k cur) {b : Nat} (hb : b ∈ d.pass.g.bufs) : (d.owners b).length ≤ L.size := by
  rcases h.full b hb with rfl | ⟨t, ht⟩ | hfull
  · rw [h.active]
    exact Nat.min_le_right _ _
  · rw [h.spare t b ht]
    exact Nat.zero_le _
  · exact Nat.le_of_eq hfull

/-- What has a slot has one within an allocated buffer. -/
theorem Drain.Inv.has_slot (h : d.Inv base k cur) (hs : d.Has call s) :
    ∃ b ∈ d.pass.g.bufs, ∃ i < L.size, (d.owners b)[i]? = some call ∧ s = L.slot b i := by
  obtain ⟨b, hb, i, hi, hslot⟩ := hs
  exact ⟨b, hb, i, (List.getElem?_eq_some_iff.mp hi).1.trans_le (h.length_le hb), hi, hslot⟩

/-- It is placed. -/
theorem Drain.Has.placed (hs : d.Has call s) : call ∈ d.placed := by
  obtain ⟨b, hb, i, hi, -⟩ := hs
  exact List.mem_append_left _ (List.mem_flatMap.mpr ⟨b, hb, List.mem_of_getElem? hi⟩)

/-- Records stay what they are. -/
theorem called_mono {calls calls' : List (Record L)} (h : calls <+: calls') {rec : Record L}
    (hrec : calls[call]? = some rec) : calls'[call]? = some rec := by
  obtain ⟨new, rfl⟩ := h
  exact List.getElem?_append_left (List.getElem?_eq_some_iff.mp hrec).1 ▸ hrec

theorem Block.Made.mono {calls calls' : List (Record L)} {f : Block} (hf : f.Made L calls) (h : calls <+: calls') :
    f.Made L calls' := by
  refine ⟨hf.1, fun i call hi => ?_⟩
  obtain ⟨rec, hrec, hholds⟩ := hf.2 i call hi
  exact ⟨rec, called_mono h hrec, hholds⟩

/-- **A step that gives no slot and moves no buffer.** -/
theorem Drain.Inv.same (h : d.Inv base k cur) (hc : c.Inv base k' cur') (hk : min k' L.size = min k L.size)
    (hsame : d.pass.g.Same c.g)
    (hcalls : Carried Pc.call c.pc (· < c.g.calls.length) fun j => j ∈ c.g.copied.map Prod.fst ∨ j ∈ c.g.thrown)
    (hwaits : ∀ u, ∀ call ∈ (c.pc u).waits, call ∉ d.placed) (hspare : ∀ u, (c.pc u).spare L = (d.pass.pc u).spare L)
    (hslot : ∀ u call s, c.pc u = .copy call s ↔ d.pass.pc u = .copy call s) :
    Drain.Inv { d with pass := c } base k' cur' where
  pass := hc
  calls := hcalls
  once := by simpa only [Drain.placed, hsame.bufs] using h.once
  bound := by
    simp only [Drain.placed, hsame.bufs]
    exact fun call hcall => (h.bound call hcall).trans_le hsame.calls.length_le
  waiting := by simpa only [Drain.placed, hsame.bufs] using hwaits
  active := by rw [hk]; exact h.active
  spare := by simpa only [hspare] using h.spare
  full := by simpa only [hsame.bufs, hspare] using h.full
  copying := by simpa only [Drain.Has, hsame.bufs, hslot] using h.copying
  written := by
    intro call s hs
    simp only [Drain.Has, hsame.bufs] at hs
    simp only [hslot, hsame.mem]
    refine (h.written call s hs).imp_right ?_
    rintro ⟨rec, hrec, hholds⟩
    exact ⟨rec, called_mono hsame.calls hrec, hholds⟩
  kept := by simpa only [Drain.Has, hsame.bufs, hsame.copied] using h.kept
  made := fun f hf => (h.made f hf).mono hsame.calls

/-! ### Steps in `addEntry` -/

/-- What has a slot after the next one of the active buffer was given. -/
theorem Drain.Inv.has_give (h : d.Inv base k cur) (hk : k < L.size) (hbufs : c.g.bufs = d.pass.g.bufs) {x y : Nat} :
    Drain.Has (⟨c, Function.update d.owners base (d.owners base ++ [call]), d.flushed⟩ : Drain τ L) x y ↔
      d.Has x y ∨ x = call ∧ y = L.slot base k := by
  have hlen : (d.owners base).length = k := by rw [h.active]; exact Nat.min_eq_left hk.le
  simp only [Drain.Has, hbufs]
  constructor
  · rintro ⟨b, hb, i, hi, rfl⟩
    by_cases hbase : b = base
    · subst hbase
      rw [Function.update_self] at hi
      rcases Nat.lt_or_ge i k with hik | hik
      · rw [List.getElem?_append_left (by rw [hlen]; exact hik)] at hi
        exact Or.inl ⟨b, hb, i, hi, rfl⟩
      · have hi' := (List.getElem?_eq_some_iff.mp hi).1
        rw [List.length_append, List.length_singleton, hlen] at hi'
        obtain rfl : i = k := by omega
        rw [← hlen, List.getElem?_concat_length, Option.some.injEq] at hi
        exact Or.inr ⟨hi.symm, rfl⟩
    · rw [Function.update_of_ne hbase] at hi
      exact Or.inl ⟨b, hb, i, hi, rfl⟩
  · rintro (⟨b, hb, i, hi, rfl⟩ | ⟨rfl, rfl⟩)
    · refine ⟨b, hb, i, ?_, rfl⟩
      by_cases hbase : b = base
      · subst hbase
        rw [Function.update_self, List.getElem?_append_left (List.getElem?_eq_some_iff.mp hi).1]
        exact hi
      · rw [Function.update_of_ne hbase]
        exact hi
    · refine ⟨base, h.pass.bufs.active.1, k, ?_, rfl⟩
      rw [Function.update_self, ← hlen, List.getElem?_concat_length]

/-- A `fetch_add` gives a slot as long as there is one. -/
theorem Drain.Inv.owned_fetch (h : d.Inv base k cur) : Pc.owned d.pass.g d.owners (.fetch call) .run =
    if k < L.size then Function.update d.owners base (d.owners base ++ [call]) else d.owners := by
  have hbase : sub32 (d.pass.g.active >>> tbShift) L.max = base := h.pass.base_eq
  have hlt : d.pass.g.active &&& tbCurrPtrMask < d.pass.g.active >>> tbShift ↔ k < L.size := by
    rw [h.pass.active, L.word_low h.pass.low, L.word_high h.pass.low, ← Layout.slot_size, ← Nat.not_le, ← Nat.not_le,
      L.slot_le_iff]
  simp only [Pc.owned, hbase, hlt]

variable [DecidableEq τ]

theorem forall_pc_update {pc : τ → Pc} {P : τ → Pc → Prop} (hq : P t q) (h : ∀ u, u ≠ t → P u (pc u)) :
    ∀ u, P u (Function.update pc t q u) := (Function.forall_update_iff pc P).mpr ⟨hq, h⟩

/-- Another thread has still to copy its record. -/
theorem copying_update {pc : τ → Pc} {x y : Nat} (h : ∃ u, pc u = .copy x y) (ht : pc t ≠ .copy x y) :
    ∃ u, Function.update pc t q u = .copy x y := by
  obtain ⟨u, hu⟩ := h
  refine ⟨u, ?_⟩
  rwa [Function.update_of_ne]
  rintro rfl
  exact ht hu

/-- **A thread goes on without a slot.** -/
theorem Drain.Inv.goOn (h : d.Inv base k cur) (hc : c.Inv base k' cur') (hk : min k' L.size = min k L.size)
    (hpc : c.pc = Function.update d.pass.pc t q) (hsame : d.pass.g.Same c.g)
    (hcalls : Carried Pc.call c.pc (· < c.g.calls.length) fun j => j ∈ c.g.copied.map Prod.fst ∨ j ∈ c.g.thrown)
    (hwaits : ∀ call ∈ q.waits, call ∉ d.placed) (hspare : q.spare L = (d.pass.pc t).spare L)
    (hslot : (d.pass.pc t).slot = none ∧ q.slot = none) : Drain.Inv { d with pass := c } base k' cur' := by
  refine h.same hc hk hsame hcalls ?_ ?_ ?_
  · rw [hpc]
    exact forall_pc_update (P := fun _ p => ∀ call ∈ p.waits, call ∉ d.placed) hwaits fun u _ => h.waiting u
  · rw [hpc]
    exact forall_pc_update (P := fun u p => p.spare L = (d.pass.pc u).spare L) hspare fun _ _ => rfl
  · rw [hpc]
    refine forall_pc_update (P := fun u p => ∀ call s, p = .copy call s ↔ d.pass.pc u = .copy call s)
      (fun call s => iff_of_false ?_ ?_) fun _ _ _ _ => Iff.rfl
    · rintro rfl
      cases hslot.2
    · intro ht
      rw [ht] at hslot
      cases hslot.1

/-- **A slot is given.** -/
theorem Drain.Inv.give (h : d.Inv base k cur) (hk : k < L.size) (hc : c.Inv base (k + 1) cur')
    (hpc : d.pass.pc t = .fetch call) (hnew : c.pc = Function.update d.pass.pc t (.copy call (L.slot base k)))
    (hsame : d.pass.g.Same c.g)
    (hcalls : Carried Pc.call c.pc (· < c.g.calls.length) fun j => j ∈ c.g.copied.map Prod.fst ∨ j ∈ c.g.thrown) :
    Drain.Inv ⟨c, Function.update d.owners base (d.owners base ++ [call]), d.flushed⟩ base (k + 1) cur' := by
  have hperm : (Drain.placed ⟨c, Function.update d.owners base (d.owners base ++ [call]), d.flushed⟩).Perm
      (call :: d.placed) := by
    simp only [Drain.placed, hsame.bufs]
    exact (perm_flatMap_append h.pass.distinct h.pass.bufs.active.1).append_right _
  have hwait : call ∈ (d.pass.pc t).waits := by rw [hpc]; rfl
  have hfresh := h.waiting t call hwait
  have hspare : ∀ u, (c.pc u).spare L = (d.pass.pc u).spare L := by
    rw [hnew]
    exact forall_pc_update (P := fun u p => p.spare L = (d.pass.pc u).spare L) (by rw [hpc]; rfl) fun _ _ => rfl
  have hbase : ∀ u, ∀ b ∈ (d.pass.pc u).spare L, b ≠ base := by
    rintro u b hb rfl
    exact (h.pass.spare hb).2 (Or.inl rfl)
  have hlen : (d.owners base).length = k := by rw [h.active]; exact Nat.min_eq_left hk.le
  exact {
    pass := hc
    calls := hcalls
    once := hperm.nodup_iff.mpr (List.nodup_cons.mpr ⟨hfresh, h.once⟩)
    bound := by
      intro x hx
      refine Nat.lt_of_lt_of_le ?_ hsame.calls.length_le
      rcases List.mem_cons.mp (hperm.mem_iff.mp hx) with rfl | hx
      · exact (h.calls.carried t x (by rw [hpc]; rfl)).1
      · exact h.bound x hx
    waiting := by
      rw [hnew]
      refine forall_pc_update (P := fun _ p => ∀ x ∈ p.waits, x ∉ Drain.placed _) (fun x hx => by cases hx) ?_
      intro u hu x hx hplaced
      rcases List.mem_cons.mp (hperm.mem_iff.mp hplaced) with rfl | hplaced
      · -- the call is one of the other thread
        have hcall : (d.pass.pc u).call = some x := by
          cases hp : d.pass.pc u <;> rw [hp] at hx <;> simp_all [Pc.waits, Pc.call]
        exact hu (h.calls.sole u t x hcall (by rw [hpc]; rfl))
      · exact h.waiting u x hx hplaced
    active := by
      simp only [Function.update_self, List.length_append, List.length_singleton, hlen]
      exact (Nat.min_eq_left hk).symm
    spare := by
      intro u b hb
      rw [hspare] at hb
      simp only [Function.update_of_ne (hbase u b hb)]
      exact h.spare u b hb
    full := by
      intro b hb
      rw [hsame.bufs] at hb
      by_cases hb' : b = base
      · exact Or.inl hb'
      · simp only [Function.update_of_ne hb', hspare]
        exact h.full b hb
    copying := by
      rw [hnew]
      refine forall_pc_update (P := fun _ p => ∀ x y, p = .copy x y → Drain.Has _ x y) ?_ ?_
      · intro x y hxy
        cases hxy
        exact (h.has_give hk hsame.bufs).mpr (Or.inr ⟨rfl, rfl⟩)
      · exact fun u _ x y hu => (h.has_give hk hsame.bufs).mpr (Or.inl (h.copying u x y hu))
    written := by
      intro x y hxy
      rw [hnew]
      rcases (h.has_give hk hsame.bufs).mp hxy with hxy | ⟨rfl, rfl⟩
      · rw [hsame.mem]
        rcases h.written x y hxy with hu | ⟨rec, hrec, hholds⟩
        · exact Or.inl (copying_update hu (by simp [hpc]))
        · exact Or.inr ⟨rec, called_mono hsame.calls hrec, hholds⟩
      · exact Or.inl ⟨t, Function.update_self ..⟩
    kept := by
      intro p hp
      rw [hsame.copied] at hp
      exact (h.kept p hp).imp_right fun hp => (h.has_give hk hsame.bufs).mpr (Or.inl hp)
    made := fun f hf => (h.made f hf).mono hsame.calls }

/-- **There is a new buffer**, and none of its slots was given. -/
theorem Drain.Inv.alloc (h : d.Inv base k cur) {a cptr : Nat} (ha : d.pass.g.Fresh a) (hc : c.Inv base k cur')
    (hpc : d.pass.pc t = .init call cptr) (hnew : c.pc = Function.update d.pass.pc t (.exchange call cptr (L.traceBuf a)))
    (hg : c.g = d.pass.g.allocTraceBuffer a) : Drain.Inv ⟨c, Function.update d.owners a [], d.flushed⟩ base k cur' := by
  have hfree : a ∉ d.pass.g.bufs := ha.2.2.1
  have hother : ∀ b ∈ d.pass.g.bufs, Function.update d.owners a [] b = d.owners b := fun b hb => by
    refine Function.update_of_ne ?_ _ _
    rintro rfl
    exact hfree hb
  have hplaced : Drain.placed ⟨c, Function.update d.owners a [], d.flushed⟩ = d.placed := by
    simp only [Drain.placed, hg, Shared.allocTraceBuffer, List.flatMap_append, List.flatMap_singleton,
      Function.update_self, List.append_nil, flatMap_update hfree]
  have hhas : ∀ x y, Drain.Has (⟨c, Function.update d.owners a [], d.flushed⟩ : Drain τ L) x y ↔ d.Has x y := by
    intro x y
    simp only [Drain.Has, hg, Shared.allocTraceBuffer, List.mem_append, List.mem_singleton]
    constructor
    · rintro ⟨b, hb | rfl, i, hi, rfl⟩
      · rw [hother b hb] at hi
        exact ⟨b, hb, i, hi, rfl⟩
      · rw [Function.update_self] at hi
        cases hi
    · rintro ⟨b, hb, i, hi, rfl⟩
      exact ⟨b, Or.inl hb, i, by rw [hother b hb]; exact hi, rfl⟩
  have hspare : ∀ b, (∃ u, b ∈ (c.pc u).spare L) ↔ b = a ∨ ∃ u, b ∈ (d.pass.pc u).spare L := by
    have hta : (Pc.exchange call cptr (L.traceBuf a)).spare L = some a := by
      rw [Pc.spare, L.traceBuf_eq ha.2.1, L.word_base ha.2.1 (by have := ha.2.1; rw [Layout.slot_zero]; omega)]
    have hnone : (d.pass.pc t).spare L = none := by rw [hpc]; rfl
    intro b
    rw [hnew]
    constructor
    · rintro ⟨u, hu⟩
      by_cases hut : u = t
      · rw [hut, Function.update_self, hta] at hu
        exact Or.inl (Option.some.inj hu).symm
      · rw [Function.update_of_ne hut] at hu
        exact Or.inr ⟨u, hu⟩
    · rintro (rfl | ⟨u, hu⟩)
      · exact ⟨t, by rw [Function.update_self, hta]; rfl⟩
      · refine ⟨u, ?_⟩
        rwa [Function.update_of_ne]
        rintro rfl
        rw [hnone] at hu
        cases hu
  exact {
    pass := hc
    calls := by
      rw [hnew, hg]
      exact h.calls.keep (by rw [hpc]; rfl)
    once := by rw [hplaced]; exact h.once
    bound := by
      rw [hplaced, hg]
      exact h.bound
    waiting := by
      rw [hplaced, hnew]
      refine forall_pc_update (P := fun _ p => ∀ x ∈ p.waits, x ∉ d.placed) ?_ fun u _ => h.waiting u
      have hwaits := h.waiting t
      rwa [hpc] at hwaits
    active := (congrArg List.length (hother base h.pass.bufs.active.1)).trans h.active
    spare := by
      intro u b hb
      rcases (hspare b).mp ⟨u, hb⟩ with rfl | ⟨v, hv⟩
      · exact Function.update_self ..
      · exact (hother b (h.pass.spare hv).1).trans (h.spare v b hv)
    full := by
      intro b hb
      rw [hg, Shared.allocTraceBuffer, List.mem_append, List.mem_singleton] at hb
      rw [hspare]
      rcases hb with hb | rfl
      · simp only [hother b hb]
        exact (h.full b hb).imp_right (Or.imp_left Or.inr)
      · exact Or.inr (Or.inl (Or.inl rfl))
    copying := by
      rw [hnew]
      refine forall_pc_update (P := fun _ p => ∀ x y, p = .copy x y → Drain.Has _ x y) (fun x y hq => by cases hq) ?_
      exact fun u _ x y hu => (hhas x y).mpr (h.copying u x y hu)
    written := by
      intro x y hxy
      rw [hhas] at hxy
      rw [hnew, hg]
      rcases h.written x y hxy with hu | ⟨rec, hrec, hholds⟩
      · exact Or.inl (copying_update hu (by simp [hpc]))
      · -- the new buffer is apart from that of the slot
        obtain ⟨b, hb, i, hi, -, rfl⟩ := h.has_slot hxy
        have hend := L.slot_lt (b := b) hi
        rw [Layout.slot_size] at hend
        have hstart : b ≤ L.slot b i := Nat.le_add_right _ _
        refine Or.inr ⟨rec, hrec, hholds.of_eq fun z hz hz' => Shared.alloc_other ?_⟩
        rcases ha.2.2.2 b hb with hapart | hapart <;> omega
    kept := by
      intro p hp
      rw [hg] at hp
      exact (h.kept p hp).imp_right (hhas p.1 p.2).mpr
    made := by
      rw [hg]
      exact h.made }

/-- **The new buffer is made the active one**: the old one is full. -/
theorem Drain.Inv.exchange (h : d.Inv base k cur) {a cptr newbuf : Nat} (hc : c.Inv a 0 cur') (hk : L.size ≤ k)
    (hpc : d.pass.pc t = .exchange call cptr newbuf) (hword : newbuf = L.word a 0) (ha : a + L.max < 2 ^ 32)
    (hnew : c.pc = Function.update d.pass.pc t q) (hsame : d.pass.g.Same c.g)
    (hcalls : Carried Pc.call c.pc (· < c.g.calls.length) fun j => j ∈ c.g.copied.map Prod.fst ∨ j ∈ c.g.thrown)
    (hq : q.waits = some call ∧ q.spare L = none ∧ q.slot = none) : Drain.Inv { d with pass := c } a 0 cur' := by
  have hta : (d.pass.pc t).spare L = some a := by
    rw [hpc, Pc.spare, hword, L.word_base ha (by rw [Layout.slot_zero]; omega)]
  exact {
    pass := hc
    calls := hcalls
    once := by simpa only [Drain.placed, hsame.bufs] using h.once
    bound := by
      simp only [Drain.placed, hsame.bufs]
      exact fun x hx => (h.bound x hx).trans_le hsame.calls.length_le
    waiting := by
      simp only [Drain.placed, hsame.bufs, hnew]
      refine forall_pc_update (P := fun _ p => ∀ x ∈ p.waits, x ∉ d.placed) ?_ fun u _ => h.waiting u
      rw [hq.1]
      rintro x hx
      cases hx
      exact h.waiting t call (by rw [hpc]; rfl)
    active := by
      have hnil : d.owners a = [] := h.spare t a hta
      rw [hnil, List.length_nil]
      exact (Nat.zero_min _).symm
    spare := by
      rw [hnew]
      refine forall_pc_update (P := fun _ p => ∀ b ∈ p.spare L, d.owners b = []) ?_ fun u _ => h.spare u
      rw [hq.2.1]
      exact fun b hb => by cases hb
    full := by
      intro b hb
      rw [hsame.bufs] at hb
      rcases h.full b hb with rfl | ⟨u, hu⟩ | hfull
      · refine Or.inr (Or.inr ?_)
        rw [h.active]
        exact Nat.min_eq_right hk
      · by_cases hut : u = t
        · rw [hut, hta] at hu
          exact Or.inl (Option.some.inj hu).symm
        · exact Or.inr (Or.inl ⟨u, by rw [hnew, Function.update_of_ne hut]; exact hu⟩)
      · exact Or.inr (Or.inr hfull)
    copying := by
      simp only [Drain.Has, hsame.bufs, hnew]
      refine forall_pc_update (P := fun _ p => ∀ x y, p = .copy x y → d.Has x y) ?_ fun u _ => h.copying u
      rintro x y rfl
      cases hq.2.2
    written := by
      intro x y hxy
      simp only [Drain.Has, hsame.bufs] at hxy
      rw [hnew, hsame.mem]
      rcases h.written x y hxy with hu | ⟨rec, hrec, hholds⟩
      · exact Or.inl (copying_update hu (by simp [hpc]))
      · exact Or.inr ⟨rec, called_mono hsame.calls hrec, hholds⟩
    kept := by simpa only [Drain.Has, hsame.bufs, hsame.copied] using h.kept
    made := fun f hf => (h.made f hf).mono hsame.calls }

/-- **A record is copied** to its slot. -/
theorem Drain.Inv.copy (h : d.Inv base k cur) (hc : c.Inv base k cur') (hpc : d.pass.pc t = .copy call s) {rec : Record L}
    (hrec : d.pass.g.calls[call]? = some rec) (hnew : c.pc = Function.update d.pass.pc t .idle)
    (hg : c.g = { d.pass.g.memcpy s rec with copied := d.pass.g.copied ++ [(call, s)] }) :
    Drain.Inv { d with pass := c } base k cur' := by
  have hbufs : c.g.bufs = d.pass.g.bufs := by rw [hg]; rfl
  have hcalls : c.g.calls = d.pass.g.calls := by rw [hg]; rfl
  have hhas := h.copying t call s hpc
  have hwritten : ∀ x y, d.Has x y → (∃ u, c.pc u = .copy x y) ∨
      ∃ r, d.pass.g.calls[x]? = some r ∧ Holds (d.pass.g.memcpy s rec).mem y r := by
    intro x y hxy
    obtain ⟨b, hb, i, hi, hown, rfl⟩ := h.has_slot hhas
    obtain ⟨b', hb', j, hj, hown', rfl⟩ := h.has_slot hxy
    by_cases hslot : L.slot b' j = L.slot b i
    · obtain rfl := h.pass.bufs.slot_buffer hb' hb hj hi hslot
      obtain rfl := L.slot_inj hslot
      obtain rfl : x = call := Option.some.inj (hown'.symm.trans hown)
      exact Or.inr ⟨rec, hrec, Shared.memcpy_holds⟩
    · rcases h.written x _ hxy with hu | ⟨r, hr, hholds⟩
      · rw [hnew]
        refine Or.inl (copying_update hu fun ht => hslot ?_)
        rw [hpc, Pc.copy.injEq] at ht
        exact ht.2.symm
      · -- the slots share no byte
        refine Or.inr ⟨r, hr, hholds.of_eq fun z hz hz' => Shared.memcpy_other ?_⟩
        rcases h.pass.bufs.slot_apart hb' hb hj hi hslot with hapart | hapart <;> omega
  exact {
    pass := hc
    calls := by
      rw [hnew, hg]
      refine h.calls.settle (by rw [hpc]; rfl) rfl fun x => ?_
      simp only [List.map_append, List.map_singleton, List.mem_append, List.mem_singleton, Shared.memcpy]
      tauto
    once := by simpa only [Drain.placed, hbufs] using h.once
    bound := by simpa only [Drain.placed, hbufs, hcalls] using h.bound
    waiting := by
      simp only [Drain.placed, hbufs, hnew]
      exact forall_pc_update (P := fun _ p => ∀ x ∈ p.waits, x ∉ d.placed) (fun x hx => by cases hx) fun u _ => h.waiting u
    active := h.active
    spare := by
      rw [hnew]
      exact forall_pc_update (P := fun _ p => ∀ b ∈ p.spare L, d.owners b = []) (fun b hb => by cases hb) fun u _ => h.spare u
    full := by
      intro b hb
      rw [hbufs] at hb
      refine (h.full b hb).imp_right (Or.imp_left ?_)
      rintro ⟨u, hu⟩
      refine ⟨u, ?_⟩
      rw [hnew, Function.update_of_ne]
      · exact hu
      · rintro rfl
        rw [hpc] at hu
        cases hu
    copying := by
      simp only [Drain.Has, hbufs, hnew]
      exact forall_pc_update (P := fun _ p => ∀ x y, p = .copy x y → d.Has x y) (fun x y hq => by cases hq)
        fun u _ => h.copying u
    written := by
      intro x y hxy
      simp only [Drain.Has, hbufs] at hxy
      rw [hg]
      exact hwritten x y hxy
    kept := by
      intro p hp
      simp only [Drain.Has, hbufs]
      rw [hg, List.mem_append, List.mem_singleton] at hp
      rcases hp with hp | rfl
      · exact h.kept p hp
      · exact Or.inr hhas
    made := by
      rw [hcalls]
      exact h.made }

omit [DecidableEq τ] in
/-- **A full buffer is flushed** in which every record was copied. -/
theorem Drain.Inv.flush (h : d.Inv base k cur) {b : Nat} (hb : b ∈ d.pass.g.bufs) (hfull : (d.owners b).length = L.size)
    (hsettled : d.pass.Settled b) (hc : c.Inv base k cur') (hpc : c.pc = d.pass.pc)
    (hg : c.g = { d.pass.g with bufs := d.pass.g.bufs.erase b }) :
    Drain.Inv ⟨c, d.owners, d.flushed ++ [d.block b]⟩ base k cur' := by
  have hbufs : c.g.bufs = d.pass.g.bufs.erase b := by rw [hg]
  have hcalls : c.g.calls = d.pass.g.calls := by rw [hg]
  have hperm : (Drain.placed ⟨c, d.owners, d.flushed ++ [d.block b]⟩).Perm d.placed := by
    simp only [Drain.placed, hbufs, List.flatMap_append, List.flatMap_singleton]
    have hold := (List.perm_cons_erase hb).flatMap_right d.owners
    rw [List.flatMap_cons] at hold
    refine List.Perm.trans ?_ (hold.symm.append_right _)
    rw [← List.append_assoc, List.append_assoc (d.owners b)]
    exact List.perm_append_comm
  have hinside : ∀ x y, d.Has x y → Drain.Has (⟨c, d.owners, d.flushed ++ [d.block b]⟩ : Drain τ L) x y ∨
      x ∈ d.owners b ∧ b ≤ y ∧ y < b + L.max := by
    intro x y hxy
    obtain ⟨b', hb', i, hi, hown, rfl⟩ := h.has_slot hxy
    by_cases hbb : b' = b
    · subst hbb
      have hend := L.slot_lt (b := b') hi
      have hw := L.width_pos
      rw [Layout.slot_size] at hend
      exact Or.inr ⟨List.mem_of_getElem? hown, Nat.le_add_right _ _, by omega⟩
    · refine Or.inl ⟨b', ?_, i, hown, rfl⟩
      rw [hbufs]
      exact (List.mem_erase_of_ne hbb).mpr hb'
  have hfrom : ∀ x y, Drain.Has (⟨c, d.owners, d.flushed ++ [d.block b]⟩ : Drain τ L) x y → d.Has x y := by
    rintro x y ⟨b', hb', i, hi, hy⟩
    rw [hbufs] at hb'
    exact ⟨b', List.mem_of_mem_erase hb', i, hi, hy⟩
  exact {
    pass := hc
    calls := by
      rw [hpc, hg]
      exact h.calls
    once := hperm.nodup_iff.mpr h.once
    bound := by
      rw [hcalls]
      exact fun x hx => h.bound x (hperm.mem_iff.mp hx)
    waiting := by
      rw [hpc]
      exact fun u x hx hplaced => h.waiting u x hx (hperm.mem_iff.mp hplaced)
    active := h.active
    spare := by
      rw [hpc]
      exact h.spare
    full := by
      intro b' hb'
      rw [hbufs] at hb'
      rw [hpc]
      exact h.full b' (List.mem_of_mem_erase hb')
    copying := by
      intro u x y hu
      rw [hpc] at hu
      refine (hinside x y (h.copying u x y hu)).resolve_right fun hin => ?_
      exact hsettled u y (by rw [hu]; rfl) hin.2
    written := by
      intro x y hxy
      rw [hpc, hg]
      exact h.written x y (hfrom x y hxy)
    kept := by
      intro p hp
      rw [hg] at hp
      rcases h.kept p hp with ⟨f, hf, hpf⟩ | hhas
      · exact Or.inl ⟨f, List.mem_append_left _ hf, hpf⟩
      · refine (hinside p.1 p.2 hhas).symm.imp_left fun hin => ?_
        exact ⟨d.block b, List.mem_append_right _ (List.mem_singleton.mpr rfl), hin.1⟩
    made := by
      intro f hf
      rw [hcalls]
      rcases List.mem_append.mp hf with hf | hf
      · exact h.made f hf
      obtain rfl := List.mem_singleton.mp hf
      refine ⟨hfull, fun i x hi => ?_⟩
      have hhas : d.Has x (L.slot b i) := ⟨b, hb, i, hi, rfl⟩
      rcases h.written x _ hhas with ⟨u, hu⟩ | ⟨rec, hrec, hholds⟩
      · have hend := L.slot_lt (b := b) ((List.getElem?_eq_some_iff.mp hi).1.trans_le hfull.le)
        have hw := L.width_pos
        rw [Layout.slot_size] at hend
        exact absurd ⟨Nat.le_add_right b _, by omega⟩ (hsettled u (L.slot b i) (by rw [hu]; rfl))
      · refine ⟨rec, hrec, fun j => ?_⟩
        rw [← hholds j]
        simp [Drain.block, Layout.slot, Nat.add_assoc] }

/-- **A step in `addEntry`.** -/
theorem Drain.Inv.add (h : d.Inv base k cur) {move : Move L} (hkeeps : d.pass.Keeps (d.pass.pc t) move)
    {r : Shared L × Pc} (hr : d.pass.g.addEntry (d.pass.pc t) move = some r) : ∃ a j, Drain.Inv ⟨{ d.pass with
      g := r.1, pc := Function.update d.pass.pc t r.2, lists := (d.pass.pc t).linked d.pass.lists },
      (d.pass.pc t).owned d.pass.g d.owners move, d.flushed⟩ a j cur := by
  obtain ⟨a, j, hinv⟩ := h.pass.add hkeeps hr
  have hsame : d.pass.g.Same d.pass.g := ⟨rfl, List.prefix_rfl, rfl, rfl⟩
  have hwaits : ∀ x ∈ (d.pass.pc t).waits, x ∉ d.placed := h.waiting t
  cases hpc : d.pass.pc t with
  | idle =>
    cases move with
    | enter rec sec =>
      simp only [hpc, Shared.addEntry, Option.some.injEq] at hr
      subst hr
      obtain ⟨rfl, rfl⟩ := h.pass.unique hinv rfl
      refine ⟨a, j, h.goOn (by rwa [hpc] at hinv) rfl rfl ⟨rfl, List.prefix_append _ _, rfl, rfl⟩ ?_ ?_ (by rw [hpc]; rfl)
        ⟨by rw [hpc]; rfl, rfl⟩⟩
      · refine h.calls.take (by rw [hpc]; rfl) rfl (Nat.lt_irrefl _) fun x => ?_
        rw [List.length_append, List.length_singleton, Nat.lt_succ_iff_lt_or_eq]
      · intro x hx hplaced
        obtain rfl : d.pass.g.calls.length = x := Option.some.inj hx
        exact absurd (h.bound _ hplaced) (Nat.lt_irrefl _)
    | _ => simp [hpc, Shared.addEntry] at hr
  | fetch call =>
    cases move with
    | run =>
      rw [hpc] at hkeeps hr hwaits
      have hroom : L.slot base k + L.width < 2 ^ 32 := by
        have hlow : (d.pass.g.active &&& tbCurrPtrMask) + L.width < 2 ^ 32 := hkeeps
        rwa [h.pass.active, L.word_low h.pass.low] at hlow
      have hfetch := h.pass.fetch hroom hpc hr
      have hcalls := h.calls.keep (t := t) (q := r.2)
      rw [h.owned_fetch]
      refine ⟨base, k + 1, ?_⟩
      rcases Shared.fetch_cases h.pass.active h.pass.low hr with ⟨hk, rfl⟩ | ⟨hk, rfl⟩ | ⟨hk, rfl⟩
      · rw [if_neg (by omega)]
        exact h.goOn hfetch (by omega) rfl
          ⟨rfl, List.prefix_rfl, rfl, rfl⟩ (hcalls (by rw [hpc]; rfl)) hwaits (by rw [hpc]; rfl) ⟨by rw [hpc]; rfl, rfl⟩
      · rw [if_pos hk]
        exact h.give hk hfetch hpc rfl ⟨rfl, List.prefix_rfl, rfl, rfl⟩ (hcalls (by rw [hpc]; rfl))
      · rw [if_neg (by omega)]
        exact h.goOn hfetch (by omega) rfl
          ⟨rfl, List.prefix_rfl, rfl, rfl⟩ (hcalls (by rw [hpc])) hwaits (by rw [hpc]) ⟨by rw [hpc]; rfl, rfl⟩
    | _ => simp [hpc, Shared.addEntry] at hr
  | init call cptr =>
    cases move with
    | new ptr =>
      cases ptr with
      | none =>
        simp only [hpc, Shared.addEntry, Option.some.injEq] at hr
        subst hr
        obtain ⟨rfl, rfl⟩ := h.pass.unique hinv rfl
        refine ⟨a, j, h.goOn (by rwa [hpc] at hinv) rfl rfl ⟨rfl, List.prefix_rfl, rfl, rfl⟩ ?_ (fun x hx => by cases hx)
          (by rw [hpc]; rfl) ⟨by rw [hpc]; rfl, rfl⟩⟩
        refine h.calls.settle (by rw [hpc]; rfl) rfl fun x => ?_
        simp only [List.mem_append, List.mem_singleton]
        tauto
      | some b =>
        simp only [hpc, Shared.addEntry] at hr
        split_ifs at hr with hb
        obtain rfl := Option.some.inj hr
        obtain ⟨rfl, rfl⟩ := h.pass.unique hinv rfl
        exact ⟨a, j, h.alloc hb (by rwa [hpc] at hinv) hpc rfl rfl⟩
    | _ => simp [hpc, Shared.addEntry] at hr
  | exchange call cptr newbuf =>
    cases move with
    | run =>
      have hknows := h.pass.knows t
      rw [hpc] at hknows
      obtain ⟨-, hsize, b, hb, hword⟩ := hknows
      simp only [hpc, Shared.addEntry, Option.some.injEq] at hr
      subst hr
      -- the new buffer and its pointer are those of the word
      have hlow : L.slot b 0 < 2 ^ 32 := by
        rw [Layout.slot_zero]
        omega
      have hbase : a = b := by rw [← hinv.base_eq, Pass.base, hword, L.word_base hb hlow]
      subst hbase
      have hzero : j = 0 := by
        refine L.slot_inj (b := a) ?_
        rw [← L.word_low hinv.low, ← L.word_low hlow, ← hinv.active, hword]
      subst hzero
      exact ⟨a, 0, h.exchange (by rwa [hpc] at hinv) hsize.le hpc hword hb rfl ⟨rfl, List.prefix_rfl, rfl, rfl⟩
        (h.calls.keep (by rw [hpc]; rfl)) ⟨rfl, rfl, rfl⟩⟩
    | _ => simp [hpc, Shared.addEntry] at hr
  | node call buffer =>
    cases move with
    | malloc ok =>
      rw [hpc] at hkeeps
      have hok : ok = true := hkeeps
      simp only [hpc, Shared.addEntry, hok, ↓reduceIte, Option.some.injEq] at hr
      subst hr
      obtain ⟨rfl, rfl⟩ := h.pass.unique hinv rfl
      exact ⟨a, j, h.goOn (by rwa [hpc] at hinv) rfl rfl hsame (h.calls.keep (by rw [hpc]; rfl)) (by rwa [hpc] at hwaits)
        (by rw [hpc]; rfl) ⟨by rw [hpc]; rfl, rfl⟩⟩
    | _ => simp [hpc, Shared.addEntry] at hr
  | count call buffer =>
    cases move with
    | run =>
      simp only [hpc, Shared.addEntry, Option.some.injEq] at hr
      subst hr
      obtain ⟨rfl, rfl⟩ := h.pass.unique hinv rfl
      exact ⟨a, j, h.goOn (by rwa [hpc] at hinv) rfl rfl ⟨rfl, List.prefix_rfl, rfl, rfl⟩
        (h.calls.keep (by rw [hpc]; rfl)) (by rwa [hpc] at hwaits) (by rw [hpc]; rfl) ⟨by rw [hpc]; rfl, rfl⟩⟩
    | _ => simp [hpc, Shared.addEntry] at hr
  | link call buffer tbh =>
    cases move with
    | run =>
      have hknows := h.pass.knows t
      rw [hpc] at hknows
      have hpos : tbh ≠ 0 := Nat.ne_of_gt (h.pass.headed tbh hknows.1).1
      simp only [hpc, Shared.addEntry, hpos, ↓reduceIte, Option.some.injEq] at hr
      subst hr
      obtain ⟨rfl, rfl⟩ := h.pass.unique hinv rfl
      exact ⟨a, j, h.goOn (by rwa [hpc] at hinv) rfl rfl ⟨rfl, List.prefix_rfl, rfl, rfl⟩
        (h.calls.keep (by rw [hpc]; rfl)) (by rwa [hpc] at hwaits) (by rw [hpc]; rfl) ⟨by rw [hpc]; rfl, rfl⟩⟩
    | _ => simp [hpc, Shared.addEntry] at hr
  | copy call cptr =>
    cases move with
    | run =>
      simp only [hpc, Shared.addEntry] at hr
      split at hr
      · rename_i rec hrec
        obtain rfl := Option.some.inj hr
        obtain ⟨rfl, rfl⟩ := h.pass.unique hinv rfl
        exact ⟨a, j, h.copy (by rwa [hpc] at hinv) hpc hrec rfl rfl⟩
      · cases hr
    | _ => simp [hpc, Shared.addEntry] at hr

/-! ### Steps of the flush thread -/

omit [DecidableEq τ] in
/-- A step that flushes nothing. -/
theorem Pass.Inv.run_same (h : c.Inv base k cur) (hflush : c.flushes .run = none) {c' : Pass τ L} (hc : c.run = some c')
    (hsound : c.Sound .run) :
    c'.pc = c.pc ∧ ∃ head counted, c'.g = { c.g with head := head, counted := counted } := by
  have hstage := h.stage
  simp only [Pass.Sound, Pass.SoundAt] at hsound
  simp only [Pass.Knows] at hstage
  cases hs : c.stage with
  | test | header | swap | free head =>
    simp only [Pass.run, hs, Option.some.injEq] at hc
    subst hc
    exact ⟨rfl, _, _, rfl⟩
  | peek =>
    simp only [hs] at hsound
    simp only [Pass.run, hs, h.not_replaces hsound.1 hsound.2, ↓reduceIte, Option.some.injEq] at hc
    subst hc
    exact ⟨rfl, _, _, rfl⟩
  | detach newTbh =>
    simp only [Pass.run, hs, Option.some.injEq] at hc
    subst hc
    exact ⟨rfl, _, _, rfl⟩
  | walk head =>
    simp only [Pass.flushes, hs, List.head?_eq_none_iff] at hflush
    simp only [Pass.run, hs, hflush, Option.some.injEq] at hc
    subst hc
    exact ⟨rfl, _, _, rfl⟩
  | sleep => simp [Pass.run, hs] at hc
  | renew => simp [Pass.run, hs] at hc
  | ended => simp [Pass.run, hs] at hc
  | init cptr => simp [hs] at hstage
  | exchange cptr newbuf => simp [hs] at hstage
  | enqueue q => simp [hs] at hstage

/-- Any step of the flush thread that flushes nothing, or an interruption. -/
theorem Pass.Inv.step_same (h : c.Inv base k cur) {e : Event τ L} (hadd : ∀ t move, e ≠ .add t move)
    (hflush : c.flushes e = none) (hsound : c.Sound e) {c' : Pass τ L} (hc : c.step e = some c') :
    c'.pc = c.pc ∧ ∃ head counted, c'.g = { c.g with head := head, counted := counted } := by
  have hstage := h.stage
  simp only [Pass.Knows] at hstage
  cases e with
  | add t move => exact absurd rfl (hadd t move)
  | interrupt =>
    cases hc
    exact ⟨rfl, _, _, rfl⟩
  | wake sec =>
    cases hs : c.stage with
    | sleep =>
      simp only [Pass.step, hs, Option.some.injEq] at hc
      subst hc
      exact ⟨rfl, _, _, rfl⟩
    | _ => simp [Pass.step, hs] at hc
  | new ptr =>
    cases hs : c.stage with
    | init cptr => simp [hs] at hstage
    | _ => simp [Pass.step, hs] at hc
  | malloc ok =>
    cases hs : c.stage with
    | enqueue q => simp [hs] at hstage
    | _ => simp [Pass.step, hs] at hc
  | head ptr =>
    cases hs : c.stage with
    | renew =>
      cases ptr with
      | none =>
        simp only [Pass.step, hs, Option.some.injEq] at hc
        subst hc
        exact ⟨rfl, _, _, rfl⟩
      | some a =>
        simp only [Pass.step, hs] at hc
        split_ifs at hc
        obtain rfl := Option.some.inj hc
        exact ⟨rfl, _, _, rfl⟩
    | _ => simp [Pass.step, hs] at hc
  | run => exact h.run_same hflush hc hsound

omit [DecidableEq τ] in
/-- A buffer that is flushed is full, and neither active nor new. -/
theorem Drain.Inv.flushes_full (h : d.Inv base k cur) {b : Nat} (hb : d.pass.flushes .run = some b) :
    b ∈ d.pass.g.bufs ∧ (d.owners b).length = L.size ∧
      ∀ c', d.pass.run = some c' → c'.pc = d.pass.pc ∧ c'.g = { d.pass.g with bufs := d.pass.g.bufs.erase b } := by
  cases hs : d.pass.stage with
  | walk head =>
    simp only [Pass.flushes, hs] at hb
    obtain ⟨rest, hlist⟩ := List.head?_eq_some_iff.mp hb
    have hstage := h.pass.stage
    simp only [Pass.Knows, hs] at hstage
    have hmem : ∃ l ∈ d.pass.heads, b ∈ d.pass.lists l :=
      ⟨head, hstage.1, by rw [hlist]; exact List.mem_cons_self⟩
    have hbuf := h.pass.items.given_of b (Or.inr hmem)
    refine ⟨hbuf, ?_, ?_⟩
    · rcases h.full b hbuf with rfl | ⟨t, ht⟩ | hfull
      · obtain ⟨l, hl, hbl⟩ := hmem
        exact absurd hbl (h.pass.lists.spare l hl)
      · exact absurd (Or.inr hmem) (h.pass.spare ht).2
      · exact hfull
    · intro c' hc
      simp only [Pass.run, hs, hlist, Option.some.injEq] at hc
      subst hc
      exact ⟨rfl, rfl⟩
  | _ => simp [Pass.flushes, hs] at hb

/-- **A step that flushes nothing**, outside `addEntry`. -/
theorem Drain.Inv.quiet (h : d.Inv base k cur) {e : Event τ L} (hadd : ∀ t move, e ≠ .add t move)
    (hflush : d.pass.flushes e = none) (hsound : d.pass.Sound e) {c' : Pass τ L} (hc : d.pass.step e = some c') :
    ∃ cur', Drain.Inv ⟨c', d.owned e, d.flushed⟩ base k cur' := by
  have howned : d.owned e = d.owners := by
    have hstage := h.pass.stage
    simp only [Pass.Knows] at hstage
    cases e with
    | add t move => exact absurd rfl (hadd t move)
    | new ptr =>
      cases hs : d.pass.stage with
      | init cptr => simp [hs] at hstage
      | _ => cases ptr <;> simp [Drain.owned, hs]
    | _ => rfl
  obtain ⟨a, j, cur', hinv⟩ := h.pass.step hsound hc
  obtain ⟨hpc, head, counted, hg⟩ := h.pass.step_same hadd hflush hsound hc
  obtain ⟨rfl, rfl⟩ := h.pass.unique hinv (by rw [hg])
  have hsame : d.pass.g.Same c'.g := by
    rw [hg]
    exact ⟨rfl, List.prefix_rfl, rfl, rfl⟩
  refine ⟨cur', ?_⟩
  rw [howned]
  refine h.same hinv rfl hsame ?_ (by rw [hpc]; exact h.waiting) (fun u => by rw [hpc]) fun u x y => by rw [hpc]
  rw [hpc, hg]
  exact h.calls

/-- **One step keeps the invariant**, if it is sound. -/
theorem Drain.Inv.step (h : d.Inv base k cur) {e : Event τ L} (hsound : d.Sound e) {d' : Drain τ L}
    (hd : d.step e = some d') : ∃ a j cur', d'.Inv a j cur' := by
  obtain ⟨c', hc, rfl⟩ := Option.map_eq_some_iff.mp hd
  by_cases hadd : ∃ t move, e = .add t move
  · obtain ⟨t, move, rfl⟩ := hadd
    obtain ⟨r, hr, rfl⟩ := Option.map_eq_some_iff.mp hc
    obtain ⟨a, j, hinv⟩ := h.add hsound.1 hr
    refine ⟨a, j, cur, ?_⟩
    simpa [Pass.flushes, Drain.owned] using hinv
  cases hflush : d.pass.flushes e with
  | none =>
    obtain ⟨cur', hinv⟩ := h.quiet (fun t move he => hadd ⟨t, move, he⟩) hflush hsound.1 hc
    refine ⟨base, k, cur', ?_⟩
    simpa using hinv
  | some b =>
    have hrun : e = .run := by
      cases e with
      | run => rfl
      | _ => cases hflush
    subst hrun
    obtain ⟨hb, hfull, hleft⟩ := h.flushes_full hflush
    obtain ⟨hpc, hg⟩ := hleft c' hc
    obtain ⟨a, j, cur', hinv⟩ := h.pass.step hsound.1 hc
    obtain ⟨rfl, rfl⟩ := h.pass.unique hinv (by rw [hg])
    exact ⟨a, j, cur', h.flush hb hfull (hsound.2 b hflush) hinv hpc hg⟩

omit [DecidableEq τ] in
theorem Drain.Started.inv (h : d.Started) : ∃ base k cur, d.Inv base k cur := by
  obtain ⟨hstarted, howners, hflushed⟩ := h
  obtain ⟨base, k, cur, hinv⟩ := hstarted.inv
  obtain ⟨hidle, buf, head, ts, mem, hbuf, -, hg, -⟩ := hstarted
  have hzero : k = 0 := by
    have hword : L.word base k = L.word buf 0 := by
      rw [← hinv.active, hg, ← L.traceBuf_eq hbuf.2]
      rfl
    have hlow : L.slot buf 0 < 2 ^ 32 := by
      rw [Layout.slot_zero]
      omega
    have hbase : base = buf := by
      rw [← hinv.base_eq, Pass.base, hinv.active, hword, L.word_base hbuf.2 hlow]
    subst hbase
    refine L.slot_inj (b := base) ?_
    rw [← L.word_low hinv.low, hword, L.word_low hlow]
  subst hzero
  have hplaced : d.placed = [] := by
    simp [Drain.placed, howners, hflushed]
  have hhas : ∀ x y, ¬ d.Has x y := by
    rintro x y ⟨b, -, i, hi, -⟩
    rw [howners] at hi
    cases hi
  have hnone : ∀ t, (d.pass.pc t).waits = none ∧ (d.pass.pc t).spare L = none := fun t => by
    rw [hidle t]
    exact ⟨rfl, rfl⟩
  refine ⟨base, 0, cur, ?_⟩
  exact {
    pass := hinv
    calls := Carried.of_none (fun t => by rw [hidle t]; rfl) (by simp [hg, Shared.tracer])
    once := by rw [hplaced]; exact List.nodup_nil
    bound := by rw [hplaced]; exact fun x hx => absurd hx List.not_mem_nil
    waiting := fun t x hx => by rw [(hnone t).1] at hx; cases hx
    active := by rw [howners, List.length_nil, Nat.zero_min]
    spare := fun t b hb => by rw [(hnone t).2] at hb; cases hb
    full := fun b hb => by
      rw [hg, Shared.tracer, List.mem_singleton] at hb
      have hbase := hinv.bufs.active.1
      rw [hg, Shared.tracer, List.mem_singleton] at hbase
      exact Or.inl (hb.trans hbase.symm)
    copying := fun t x y hxy => by rw [hidle t] at hxy; cases hxy
    written := fun x y hxy => absurd hxy (hhas x y)
    kept := fun p hp => by rw [hg] at hp; exact absurd hp List.not_mem_nil
    made := fun f hf => by rw [hflushed] at hf; exact absurd hf List.not_mem_nil }

omit [DecidableEq τ] in
theorem Drain.Inv.whole (h : d.Inv base k cur) : d.Whole where
  made := h.made
  once := h.once
  kept := by
    intro p hp
    refine (h.kept p hp).imp_right fun hhas => ⟨hhas, (h.written p.1 p.2 hhas).resolve_left ?_⟩
    -- a call whose record was copied is not one of a thread
    rintro ⟨t, ht⟩
    exact (h.calls.carried t p.1 (by rw [ht]; rfl)).2 (Or.inl (List.mem_map_of_mem hp))
  inside := by
    intro t s hs
    obtain ⟨call, hcall⟩ := Pc.slot_eq_some.mp hs
    obtain ⟨b, hb, i, hi, -, rfl⟩ := h.has_slot (h.copying t call s hcall)
    have hend := L.slot_lt (b := b) hi
    rw [Layout.slot_size] at hend
    exact ⟨b, hb, Nat.le_add_right _ _, hend⟩

/-- **A buffer that is flushed is settled, or a record goes to memory that was freed.** -/
theorem Drain.Inv.settled_of_whole (h : d.Inv base k cur) {b : Nat} (hb : d.pass.flushes .run = some b) {d' : Drain τ L}
    (hd : d.step .run = some d') (hw : d'.Whole) : d.pass.Settled b := by
  obtain ⟨c', hc, rfl⟩ := Option.map_eq_some_iff.mp hd
  obtain ⟨hbuf, -, hleft⟩ := h.flushes_full hb
  obtain ⟨hpc, hg⟩ := hleft c' hc
  intro t s hs hin
  obtain ⟨b', hb', hstart, hend⟩ := hw.inside t s (by rw [hpc]; exact hs)
  rw [hg, h.pass.distinct.mem_erase_iff] at hb'
  have hwidth := L.width_pos
  rcases h.pass.bufs.apart b hbuf b' hb'.2 hb'.1.symm with hapart | hapart <;> omega

end Inv

section Run

variable {τ : Type*} [DecidableEq τ] {L : Layout} {d : Drain τ L}

/-- **No record is lost, torn or doubled** on its way from `addEntry` to `flush`, in every run in which no buffer is lost or
replaced too early, and a buffer is flushed only when no thread has still to copy a record into it. A step that flushes a
buffer keeps it so exactly if no thread has. -/
theorem flush_whole_iff (h : Reach Drain.step Drain.Sound Drain.Started d) :
    d.Whole ∧ ∀ b, d.pass.flushes .run = some b → ∀ d', d.step .run = some d' → (d'.Whole ↔ d.pass.Settled b) := by
  have hinv : ∃ base k cur, d.Inv base k cur := by
    refine Reach.inv (I := fun d => ∃ base k cur, d.Inv base k cur) (fun _ hd => hd.inv) ?_ h
    rintro d e d' ⟨base, k, cur, hd⟩ hsound hs
    exact hd.step hsound hs
  obtain ⟨base, k, cur, hd⟩ := hinv
  refine ⟨hd.whole, fun b hb d' hs => ⟨hd.settled_of_whole hb hs, fun hsettled => ?_⟩⟩
  have hsound : d.Sound .run := by
    refine ⟨?_, fun b' hb' => ?_⟩
    · -- the list that is walked is not at its end
      simp only [Pass.flushes] at hb
      simp only [Pass.Sound, Pass.SoundAt]
      split at hb
      · rename_i head hstage
        rw [hstage]
        exact fun hnil => by rw [hnil] at hb; cases hb
      · cases hb
    · obtain rfl : b = b' := Option.some.inj (hb.symm.trans hb')
      exact hsettled
  obtain ⟨a, j, cur', hinv⟩ := hd.step hsound hs
  exact hinv.whole

end Run

/-! ## Two runs -/

/-- A tracer with a history. -/
def startedDrain (τ : Type) (L : Layout) : Drain τ L := ⟨started τ L, fun _ => [], []⟩

/-- A thread fills a buffer, replaces it and enqueues it, and the flush thread comes to the list. -/
def comesToFull : List (Event Bool pairs) :=
  fills.map (.add false) ++ [.add false .run, .run, .wake 1, .run, .run, .head (some 0x200), .run]

/-- The steps of a thread that takes the last slot of a buffer, replaces it and enqueues it. -/
def takesLast : List (Move pairs) :=
  [.enter (fun _ => 7) 0, .run, .run, .enter (fun _ => 9) 1, .run, .new (some 0x20), .run, .malloc true, .run, .run]

/-- The same, but another thread has the first slot and has not copied its record. -/
def comesTooEarly : List (Event Bool pairs) :=
  [.add true (.enter (fun _ => 6) 0), .add true .run] ++ takesLast.map (.add false) ++
    [.run, .wake 1, .run, .run, .head (some 0x200), .run]

theorem startedDrain_started (τ : Type) {L : Layout} (h : 0x10 + L.max < 2 ^ 32) : (startedDrain τ L).Started :=
  ⟨started_started τ h, fun _ => rfl, rfl⟩

/-- The bytes of the blocks, with the calls that their slots were given to. -/
def Drain.handed (d : Drain Bool pairs) : List (List Nat × UInt8 × UInt8) :=
  d.flushed.map fun f => (f.calls, f.bytes 0, f.bytes 1)

/-- A full buffer is flushed whole. If a record was not copied yet, the slot of the block is empty, and the record goes to
memory that was freed. -/
theorem two_records_flushed :
    (∃ d d', Reach Drain.step Drain.Sound Drain.Started (d : Drain Bool pairs) ∧ d.step .run = some d' ∧
      d'.handed = [([0, 1], 7, 8)] ∧ d'.Whole) ∧
    ∃ d d', Reach Drain.step Drain.Sound Drain.Started (d : Drain Bool pairs) ∧ d.step .run = some d' ∧
      d'.handed = [([0, 1], 0, 7)] ∧ ¬ d'.Whole := by
  have hrun : ∀ (es : List (Event Bool pairs)) (b : Bool) (blocks : List (List Nat × UInt8 × UInt8)),
      (runAll Drain.step Drain.Sound (startedDrain Bool pairs) es).any (fun d =>
        decide (d.pass.flushes .run = some 0x10 ∧ (d.pass.Settled 0x10 ↔ b = true)) &&
          (d.step .run).any fun d' => decide (d'.handed = blocks)) = true →
      ∃ d d', Reach Drain.step Drain.Sound Drain.Started (d : Drain Bool pairs) ∧ d.step .run = some d' ∧
        d'.handed = blocks ∧ (d'.Whole ↔ b = true) := by
    intro es b blocks hes
    obtain ⟨d, hd, hends⟩ := Reach.of_runAll (startedDrain_started Bool (by decide)) es _ hes
    obtain ⟨hstate, hstep⟩ := Bool.and_eq_true_iff.mp hends
    obtain ⟨hflush, hsettled⟩ := of_decide_eq_true hstate
    obtain ⟨d', hd', hblocks⟩ := (Option.any_eq_true _ _).mp hstep
    exact ⟨d, d', hd, hd', of_decide_eq_true hblocks, ((flush_whole_iff hd).2 0x10 hflush d' hd').trans hsettled⟩
  constructor
  · obtain ⟨d, d', hd, hd', hblocks, hwhole⟩ := hrun comesToFull true [([0, 1], 7, 8)] (by decide)
    exact ⟨d, d', hd, hd', hblocks, hwhole.mpr rfl⟩
  · obtain ⟨d, d', hd, hd', hblocks, hwhole⟩ := hrun comesTooEarly false [([0, 1], 0, 7)] (by decide)
    exact ⟨d, d', hd, hd', hblocks, fun hw => Bool.false_ne_true (hwhole.mp hw)⟩

end Cosmost.Tracer
