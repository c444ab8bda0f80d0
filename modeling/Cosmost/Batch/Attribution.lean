import Cosmost.Batch.Wrappers
import Cosmost.Lib.Run

/-!
# Which file a reported batch is attributed to

A wrapper has one path buffer. It is overwritten when the path of another descriptor is looked up, and whatever it
holds when the pending batch is emitted becomes the path of the report: the emission of the old batch comes after the
lookup for the new one.

`Attributed tr`: every report in the trace names the file of the accesses that the access string listed then. It holds
of a run in which no lookup puts another path into the buffer while a batch is pending (`KeepsPath`,
`attributed_run`); switching from one file in scope to another breaks it (`switch_misattributes`).
-/

namespace Cosmost.Batch

open Cosmost.Lib Cosmost.Fs

/-- Every report names the file that the accesses listed at that point were made on. -/
def Attributed (tr : List (Option Call × Effect)) : Prop :=
  ∀ pre x n post, tr = pre ++ (x, .notify n) :: post → ∀ c, some c ∈ listed pre → n.path = c.file.chars

/-- While it is open, a descriptor names one file; `t` is the table of the descriptors seen so far. -/
def NamesFixed : (Int → Option Path) → List Event → Prop
  | _, [] => True
  | t, .access _ c :: es => (∀ p, t c.fd = some p → p = c.file) ∧ NamesFixed (Function.update t c.fd (some c.file)) es
  | t, .close fd :: es => NamesFixed (Function.update t fd none) es
  | t, .exit :: es => NamesFixed t es

/-- The access does not overwrite the path of a pending batch: if the batch of another descriptor is pending, a
lookup that succeeds finds the path that is already there. -/
def KeepsPath (w : Wrapper) (j : Journal) : Event → Prop
  | .access e c => e.wrapper = w → e.counts c → j.vars.lastFd ≠ -1 → c.fd ≠ j.vars.lastFd →
      ∀ p, fdToPath c.fd c.link = some p → p = j.vars.path
  | .close _ | .exit => True

/-! ## Traces -/

theorem attributed_nil : Attributed [] := by
  intro pre x n post h
  simp at h

/-- One more effect. -/
theorem attributed_snoc {tr : List (Option Call × Effect)} {y : Option Call × Effect} (h : Attributed tr)
    (hy : ∀ n, y.2 = .notify n → ∀ c, some c ∈ listed tr → n.path = c.file.chars) : Attributed (tr ++ [y]) := by
  intro pre x n post he c hc
  rcases List.eq_nil_or_concat post with rfl | ⟨post', z, rfl⟩
  · obtain ⟨h1, h2⟩ := List.append_inj' he rfl
    subst h1
    exact hy n (by rw [List.singleton_inj.mp h2]) c hc
  · rw [List.concat_eq_append, ← List.cons_append, ← List.append_assoc] at he
    exact h pre x n post' (List.append_inj' he rfl).1 c hc

theorem listed_snoc {α : Type*} (tr : List (α × Effect)) (y : α × Effect) :
    listed (tr ++ [y]) = listStep (listed tr) y := by
  rw [listed, List.foldl_append]
  rfl

/-! ## What one function keeps -/

/-- A lookup that succeeds finds the path of the file. -/
theorem Call.file_of_lookup {c : Call} {p : List Char} (h : fdToPath c.fd c.link = some p) : p = c.file.chars := by
  have hlink : c.link = (if c.lookup then some c.file else none).map Path.chars := by
    unfold Call.link; split_ifs <;> rfl
  rw [hlink] at h
  obtain ⟨q, hq, rfl⟩ := eq_of_fdToPath h
  split_ifs at hq
  rw [Option.some.inj hq]

/-- The accesses of the pending batch were made on the file that the path buffer names, and so were those of every
batch reported. -/
structure Owned (j : Journal) : Prop where
  pending : j.vars.lastFd ≠ -1 → ∀ x ∈ listed j.trace, ∃ c, x = some c ∧ c.file.chars = j.vars.path
  attributed : Attributed j.trace

theorem owned_init : Owned Journal.init := ⟨fun h => absurd rfl h, attributed_nil⟩

theorem keep_nil (j : Journal) (x : Option Call) : j.keep x (j.vars, []) = j := by
  simp [Journal.keep]

theorem keep_keep (j : Journal) (x : Option Call) (p : Vars × List Effect) (b : Vars) (out : List Effect) :
    (j.keep x p).keep x (b, out) = j.keep x (b, p.2 ++ out) := by
  simp [Journal.keep]

/-- The journal with a path looked up. -/
def Journal.withPath (j : Journal) (p : List Char) : Journal := ⟨{ j.vars with path := p }, j.trace⟩

/-- A lookup keeps the pending batch owned if it finds the path that is there. -/
theorem Owned.withPath {j : Journal} (h : Owned j) {p : List Char} (hp : j.vars.lastFd ≠ -1 → p = j.vars.path) :
    Owned (j.withPath p) :=
  ⟨fun hl x hx => by
    obtain ⟨c, hc, hf⟩ := h.pending hl x hx
    exact ⟨c, hc, hf.trans (hp hl).symm⟩, h.attributed⟩

section Writes

variable (op : String) {j : Journal} {c : Call} (h : Owned j) (hc : c.file.chars = j.vars.path)
include h hc

theorem Owned.notify (fd cs ce : Int) (size : Nat) (off : Int) :
    Owned (j.keep (some c) (batchReadWriteNotify op fd cs ce size off j.vars)) := by
  refine ⟨fun _ x hx => ?_, ?_⟩
  · have hl := listed_notify j.trace (some c) op fd cs ce size off j.vars
    simp only [Journal.keep, hl, List.mem_singleton] at hx
    exact ⟨c, hx, hc⟩
  · simp only [Journal.keep, batchReadWriteNotify, List.map_append, ← List.append_assoc]
    refine attributed_snoc ?_ (fun n hn => absurd hn (by simp))
    split_ifs with hp
    · refine attributed_snoc h.attributed fun n hn d hd => ?_
      simp only [notifyReadWrite, Effect.notify.injEq] at hn
      obtain ⟨d', hd', hf⟩ := h.pending hp.1 _ hd
      rw [← hn, hf.symm, Option.some.inj hd']
    · simpa using h.attributed

theorem Owned.record (hl : j.vars.lastFd ≠ -1) (fd cs ce : Int) (size : Nat) (off : Int) :
    Owned (j.keep (some c) (recordIostr op fd cs ce size off j.vars)) := by
  unfold recordIostr
  by_cases hf : iostrBufsize ≤ j.vars.access.length + 64
  · simpa only [hf, ↓reduceIte] using h.notify op hc fd cs ce size off
  · simp only [hf, ↓reduceIte, Journal.keep, List.map_singleton]
    refine ⟨fun _ x hx => ?_, attributed_snoc h.attributed fun n hn => absurd hn (by simp)⟩
    rw [listed_snoc] at hx
    cases hk : j.vars.access.length with
    | zero =>
      rw [hk] at hx
      exact ⟨c, List.mem_singleton.mp hx, hc⟩
    | succ k =>
      rw [hk] at hx
      rcases List.mem_append.mp hx with hx | hx
      · exact h.pending hl x hx
      · exact ⟨c, List.mem_singleton.mp hx, hc⟩

/-- Only the range is changed after a record. -/
theorem Owned.first (hl : j.vars.lastFd ≠ -1) (fd : Int) (size : Nat) (off : Int) :
    Owned (j.keep (some c) (batchReadWriteFirst op fd size off j.vars).2) ∧
    (batchReadWriteFirst op fd size off j.vars).2.1.path = j.vars.path := by
  have hpath : (recordIostr op fd (currStart off) (currEnd size off) size off j.vars).1.path = j.vars.path := by
    simp only [recordIostr]; split_ifs <;> rfl
  have hrec : Owned (j.keep (some c) (recordIostr op fd (currStart off) (currEnd size off) size off j.vars)) :=
    h.record op hc hl fd (currStart off) (currEnd size off) size off
  have hrange : ∀ b : Vars, b.lastFd = (recordIostr op fd (currStart off) (currEnd size off) size off j.vars).1.lastFd →
      b.path = (recordIostr op fd (currStart off) (currEnd size off) size off j.vars).1.path →
      Owned (j.keep (some c) (b, (recordIostr op fd (currStart off) (currEnd size off) size off j.vars).2)) ∧
      b.path = j.vars.path := by
    intro b h1 h2
    refine ⟨⟨fun hb x hx => ?_, hrec.attributed⟩, h2.trans hpath⟩
    obtain ⟨d, hd, hdf⟩ := hrec.pending (by simpa [Journal.keep, h1] using hb) x hx
    exact ⟨d, hd, hdf.trans h2.symm⟩
  unfold batchReadWriteFirst
  by_cases ha : invalidArgs fd size off
  · rw [if_pos ha]
    exact ⟨by rw [keep_nil]; exact h, rfl⟩
  · rw [if_neg ha]
    simp only
    split_ifs
    · exact ⟨h.notify op hc _ _ _ _ _, rfl⟩
    all_goals exact hrange _ rfl rfl

theorem Owned.second (fd : Int) (size : Nat) (off : Int) :
    Owned (j.keep (some c) (batchReadWriteSecond op fd size off j.vars)) := by
  unfold batchReadWriteSecond
  split_ifs
  · rw [keep_nil]; exact h
  · exact h.notify op hc _ _ _ _ _

end Writes

/-- The path lookup and what follows. -/
theorem Owned.slowPath {j : Journal} {c : Call} (h : Owned j) (op : String) (size : Nat) (off : Int)
    (hp : ∀ p, fdToPath c.fd c.link = some p → j.vars.lastFd ≠ -1 → p = j.vars.path) :
    Owned (j.keep (some c) (slowPath op c size off j.vars)) := by
  unfold Batch.slowPath
  cases hf : fdToPath c.fd c.link with
  | none => rw [keep_nil]; exact h
  | some p =>
    have hfile : c.file.chars = p := (Call.file_of_lookup hf).symm
    have hw := h.withPath (hp p hf)
    simp only
    split_ifs
    · exact hw.second op hfile c.fd size off
    · have : j.keep (some c) ({ j.vars with path := p }, []) = j.withPath p := by
        simp [Journal.keep, Journal.withPath]
      simp only [this]
      exact hw

/-! ## The descriptor and the path that a function leaves -/

section Names

variable (op : String) (fd : Int) (size : Nat) (off : Int) (b : Vars)

theorem first_names : (batchReadWriteFirst op fd size off b).2.1.path = b.path ∧
    ((batchReadWriteFirst op fd size off b).2.1.lastFd = b.lastFd ∨
      (batchReadWriteFirst op fd size off b).2.1.lastFd = fd) := by
  have hrec : ∀ cs ce, (recordIostr op fd cs ce size off b).1.path = b.path ∧
      ((recordIostr op fd cs ce size off b).1.lastFd = b.lastFd ∨
        (recordIostr op fd cs ce size off b).1.lastFd = fd) := by
    intro cs ce
    simp only [recordIostr]
    split_ifs
    · exact ⟨rfl, Or.inr rfl⟩
    · exact ⟨rfl, Or.inl rfl⟩
  simp only [batchReadWriteFirst]
  split_ifs
  · exact ⟨rfl, Or.inl rfl⟩
  · exact ⟨rfl, Or.inr rfl⟩
  all_goals exact hrec _ _

theorem second_names : (batchReadWriteSecond op fd size off b).1.path = b.path ∧
    ((batchReadWriteSecond op fd size off b).1.lastFd = b.lastFd ∨
      (batchReadWriteSecond op fd size off b).1.lastFd = fd) := by
  unfold batchReadWriteSecond
  split_ifs
  · exact ⟨rfl, Or.inl rfl⟩
  · exact ⟨rfl, Or.inr rfl⟩

/-- The slow path leaves the path that it found, or everything. -/
theorem slowPath_names (c : Call) :
    (∃ p, fdToPath c.fd c.link = some p ∧ (slowPath op c size off b).1.path = p ∧
      ((slowPath op c size off b).1.lastFd = b.lastFd ∨ (slowPath op c size off b).1.lastFd = c.fd)) ∨
    fdToPath c.fd c.link = none ∧ slowPath op c size off b = (b, []) := by
  unfold slowPath
  cases hf : fdToPath c.fd c.link with
  | none => exact Or.inr ⟨rfl, rfl⟩
  | some p =>
    refine Or.inl ⟨p, rfl, ?_⟩
    simp only
    split_ifs
    · exact second_names _ _ _ _ _
    · exact ⟨rfl, Or.inl rfl⟩

end Names

/-! ## Runs -/

/-- What a run keeps; `t` is the table of the open descriptors. -/
structure OwnedBy (t : Int → Option Path) (j : Journal) : Prop where
  owned : Owned j
  named : j.vars.lastFd ≠ -1 → ∃ p, t j.vars.lastFd = some p ∧ p.chars = j.vars.path

section Access

variable {t : Int → Option Path} {j : Journal} {c : Call} (h : OwnedBy t j) (hfix : ∀ p, t c.fd = some p → p = c.file)
include h hfix

/-- The table learns the descriptor of an access. -/
theorem OwnedBy.learn : OwnedBy (Function.update t c.fd (some c.file)) j := by
  refine ⟨h.owned, fun hl => ?_⟩
  obtain ⟨p, hp, hpath⟩ := h.named hl
  by_cases hfd : j.vars.lastFd = c.fd
  · rw [hfd] at hp ⊢
    exact ⟨c.file, by simp, by rw [← hfix p hp, hpath]⟩
  · exact ⟨p, by rw [Function.update_of_ne hfd]; exact hp, hpath⟩

/-- One call of a wrapper that transferred something. -/
theorem OwnedBy.traced {op : String} {size : Nat} {off : Int}
    (hk : j.vars.lastFd ≠ -1 → c.fd ≠ j.vars.lastFd → ∀ p, fdToPath c.fd c.link = some p → p = j.vars.path) :
    OwnedBy (Function.update t c.fd (some c.file)) (j.keep (some c) (traced op c size off j.vars)) := by
  have hlearn := h.learn hfix
  by_cases hl : j.vars.lastFd = c.fd
  · by_cases hm : c.fd = -1
    · -- without a descriptor nothing happens
      have ha : invalidArgs (-1) size off := Or.inl (by omega)
      have hnone : Batch.traced op c size off j.vars = (j.vars, []) := by
        simp [Batch.traced, batchReadWriteFirst, ha, Batch.slowPath, fdToPath, hm]
      rw [hnone, keep_nil]
      exact hlearn
    · have hlast : j.vars.lastFd ≠ -1 := by rw [hl]; exact hm
      have hc : c.file.chars = j.vars.path := by
        obtain ⟨p, hp, hpath⟩ := h.named hlast
        rw [hl] at hp
        rw [← hfix p hp, hpath]
      have hfirst := (h.owned.first op hc hlast c.fd size off).1
      obtain ⟨hpath, hfd⟩ := first_names op c.fd size off j.vars
      have hfd' : (batchReadWriteFirst op c.fd size off j.vars).2.1.lastFd = c.fd := hfd.elim (·.trans hl) id
      unfold Batch.traced
      rw [if_pos hl]
      simp only
      split_ifs with hr
      · exact ⟨hfirst, fun _ => ⟨c.file, by simp [Journal.keep, hfd'], by simp only [Journal.keep]; rw [hpath, hc]⟩⟩
      · have hsame : ∀ p, fdToPath c.fd c.link = some p → p = (batchReadWriteFirst op c.fd size off j.vars).2.1.path :=
          fun p hp => by rw [Call.file_of_lookup hp, hpath, hc]
        have hslow := hfirst.slowPath op size off fun p hp _ => hsame p hp
        rw [show (j.keep (some c) (batchReadWriteFirst op c.fd size off j.vars).2).vars
          = (batchReadWriteFirst op c.fd size off j.vars).2.1 from rfl, keep_keep] at hslow
        refine ⟨hslow, fun _ => ⟨c.file, ?_, ?_⟩⟩ <;> simp only [Journal.keep]
        · rcases slowPath_names op size off (batchReadWriteFirst op c.fd size off j.vars).2.1 c with ⟨p, -, -, h2⟩ | ⟨-, h2⟩
          · rw [show (Batch.slowPath op c size off (batchReadWriteFirst op c.fd size off j.vars).2.1).1.lastFd = c.fd from
              h2.elim (·.trans hfd') id]
            simp
          · rw [h2, hfd']; simp
        · rcases slowPath_names op size off (batchReadWriteFirst op c.fd size off j.vars).2.1 c with ⟨p, h1, h2, -⟩ | ⟨-, h2⟩
          · rw [h2, ← Call.file_of_lookup h1]
          · rw [h2, hpath, hc]
  · unfold Batch.traced
    rw [if_neg hl]
    have hne : c.fd ≠ j.vars.lastFd := fun he => hl he.symm
    have hslow := h.owned.slowPath op size off fun p hp hlast => hk hlast hne p hp
    refine ⟨hslow, fun hlast => ?_⟩
    simp only [Journal.keep] at hlast ⊢
    rcases slowPath_names op size off j.vars c with
      ⟨p, h1, h2, h3 | h3⟩ | ⟨-, h2⟩
    · -- the old batch stays pending: the lookup found its path
      rw [h3] at hlast ⊢
      obtain ⟨q, hq, hpath⟩ := h.named hlast
      exact ⟨q, by rw [Function.update_of_ne hl]; exact hq, by rw [h2, hk hlast hne p h1, hpath]⟩
    · exact ⟨c.file, by rw [h3]; simp, by rw [h2, Call.file_of_lookup h1]⟩
    · rw [h2] at hlast ⊢
      exact hlearn.named hlast

end Access

/-- A close reports the pending batch with the path in the buffer, or does nothing. -/
theorem OwnedBy.close {t : Int → Option Path} {j : Journal} (h : OwnedBy t j) (name : String) (fd : Int) :
    OwnedBy (if fd = -1 then t else Function.update t fd none) (j.keep none (closeWith name fd j.vars)) := by
  unfold closeWith
  by_cases hc : (fd = -1 ∧ j.vars.lastFd ≠ -1) ∨ (fd ≠ -1 ∧ fd = j.vars.lastFd)
  · rw [if_pos hc]
    have hlast : j.vars.lastFd ≠ -1 := by omega
    refine ⟨⟨fun hn => absurd rfl hn, attributed_snoc h.owned.attributed fun n hn c hm => ?_⟩, fun hn => absurd rfl hn⟩
    simp only [Effect.notify.injEq] at hn
    obtain ⟨d, hd, hf⟩ := h.owned.pending hlast _ hm
    rw [← hn, hf.symm, Option.some.inj hd]
  · rw [if_neg hc, keep_nil]
    refine ⟨h.owned, fun hl => ?_⟩
    obtain ⟨p, hp, hpath⟩ := h.named hl
    refine ⟨p, ?_, hpath⟩
    split_ifs
    · exact hp
    · rw [Function.update_of_ne (by omega)]; exact hp

/-- A run of accesses and closes. -/
theorem OwnedBy.run {w : Wrapper} {es : List Event} : ∀ {t : Int → Option Path} {j : Journal}, OwnedBy t j →
    NamesFixed t es → EachStep (Journal.step w) (KeepsPath w) j es →
    Attributed (es.foldl (Journal.step w) j).trace := by
  induction es with
  | nil => intro t j h _ _; exact h.owned.attributed
  | cons e es ih =>
    intro t j h hfix hk
    obtain ⟨hk1, hk2⟩ := hk
    cases e with
    | access e c =>
      refine ih (t := Function.update t c.fd (some c.file)) ?_ hfix.2 hk2
      by_cases hw : e.wrapper = w
      · simp only [Journal.step, hw, ↓reduceIte, Entry.run_eq]
        split_ifs with hcount
        · exact h.traced hfix.1 fun hl hne p hp => hk1 hw hcount hl hne p hp
        · rw [keep_nil]; exact h.learn hfix.1
      · simp only [Journal.step, hw, ↓reduceIte]
        exact h.learn hfix.1
    | close fd =>
      refine ih (t := Function.update t fd none) ?_ hfix hk2
      by_cases hfd : fd = -1
      · simp only [Journal.step, hfd, ↓reduceIte]
        refine ⟨h.owned, fun hl => ?_⟩
        obtain ⟨p, hp, hpath⟩ := h.named hl
        exact ⟨p, by rw [Function.update_of_ne hl]; exact hp, hpath⟩
      · simp only [Journal.step, hfd, ↓reduceIte]
        have hcl : OwnedBy (if fd = -1 then t else Function.update t fd none) (j.keep none (w.close fd j.vars)) := by
          cases w <;> exact h.close _ fd
        rwa [if_neg hfd] at hcl
    | exit =>
      refine ih ?_ hfix hk2
      have hcl : OwnedBy (if (-1 : Int) = -1 then t else Function.update t (-1) none)
          (j.keep none (w.close (-1) j.vars)) := by
        cases w <;> exact h.close _ (-1)
      rwa [if_pos rfl] at hcl

/-- **A report names the file of its accesses, as long as no lookup puts another path over that of a pending batch.**
In every run of a thread in which each descriptor names one file while it is open and every step keeps the path, every
report of every wrapper is attributed to the file on which the accesses listed in its string were made. -/
theorem attributed_run (w : Wrapper) (es : List Event) (hfix : NamesFixed (fun _ => none) es)
    (hkeep : EachStep (Journal.step w) (KeepsPath w) Journal.init es) :
    Attributed (es.foldl Thread.step Thread.init w).trace := by
  rw [foldl_step]
  exact OwnedBy.run ⟨owned_init, fun hl => absurd rfl hl⟩ hfix hkeep

/-! ## A run that attributes a batch to another file -/

/-- A read of 100 bytes at the start of a regular file. -/
def firstRead (fd : Int) (file : Path) : Event :=
  .access .read ⟨fd, 100, 100, 0, false, file, true, .mode 0x81a4, .mode 0x81a4⟩

/-- Reading one file and closing it keeps the path. -/
theorem single_file_attributed : Attributed ([firstRead 3 fileA, .close 3].foldl Thread.step Thread.init .read).trace :=
  attributed_run .read [firstRead 3 fileA, .close 3] ⟨fun _ hp => absurd hp (by simp), trivial⟩
    ⟨fun _ _ hl => absurd rfl hl, trivial, trivial⟩

/-- **Reading one file and then another reports the first batch under the second file's path.** -/
theorem switch_misattributes :
    NamesFixed (fun _ => none) [firstRead 3 fileA, firstRead 4 fileB] ∧
    ¬ Attributed ([firstRead 3 fileA, firstRead 4 fileB].foldl Thread.step Thread.init .read).trace := by
  refine ⟨⟨fun _ hp => absurd hp (by simp), fun _ hp => absurd hp (by simp), trivial⟩, fun h => ?_⟩
  have hpath := h [(some ⟨3, 100, 100, 0, false, fileA, true, .mode 0x81a4, .mode 0x81a4⟩, .snprintf 0 100 0)] _ _ _ rfl
    _ (List.mem_singleton.mpr rfl)
  exact absurd hpath (by decide)

end Cosmost.Batch
