import Cosmost.Batch.Attribution
import Cosmost.Batch.Codec

/-!
# What the reports tell

A report names a path, and lists accesses. `Journal.told` is what a reader finds in the reports of a wrapper, each access
under the path of its report; `Journal.toTell` is what stands in the variables.

One step of an access in scope tells its size and offset once (`Adds.read`), whatever path they are told under; that is the
path of its file as long as every lookup keeps the path of a pending batch (`Tells.run`).
-/

namespace Cosmost.Batch

open Cosmost.Lib Cosmost.Fs

/-- The reports among effects. -/
def reports (es : List Effect) : List Notification :=
  es.filterMap fun
    | .notify n => some n
    | .snprintf .. => none

@[simp] theorem reports_nil : reports [] = [] := rfl

@[simp] theorem reports_append (es es' : List Effect) : reports (es ++ es') = reports es ++ reports es' :=
  List.filterMap_append

@[simp] theorem reports_notify (n : Notification) (es : List Effect) : reports (.notify n :: es) = n :: reports es := rfl

@[simp] theorem reports_snprintf (i s : Nat) (o : Int) (es : List Effect) :
    reports (.snprintf i s o :: es) = reports es := rfl

/-- The strings handed over are those of the reports. -/
theorem handed_eq (es : List Effect) : handed es = (reports es).map Notification.str := by
  induction es with
  | nil => rfl
  | cons e es ih => cases e <;> simp [ih]

/-- What a report tells: accesses under a path. -/
def Notification.told (n : Notification) : List (List Char × Option (Nat × Nat)) :=
  (readAccesses n.str.dropLast).map (n.path, ·)

/-- What the reports of a journal tell. -/
def Journal.told (j : Journal) : List (List Char × Option (Nat × Nat)) :=
  (reports (j.trace.map Prod.snd)).flatMap Notification.told

/-- What its variables would tell next. -/
def Journal.toTell (j : Journal) : List (List Char × Option (Nat × Nat)) := (readPending j.vars).map (j.vars.path, ·)

/-- The access of an event, under the path of its file. -/
def Event.toTell (w : Wrapper) : Event → Option (List Char × Option (Nat × Nat))
  | .access e c => if e.wrapper = w then some (c.file.chars, some (e.size c, (e.off c).toNat)) else none
  | .close _ | .exit => none

/-! ## One function -/

/-- A pending string ends with a record. -/
theorem Good.pending {b : Vars} (h : Good b) : pending b = [] ∨ (pending b).getLast? = some ';' := by
  by_cases hl : b.lastFd = -1
  · exact Or.inl (by simp [Batch.pending, hl])
  · exact Or.inr (by simpa [Batch.pending, hl] using (h hl).str.semicolon)

/-- What is read from strings that are handed over, and from the pending one. -/
theorem Adds.read {r : List Char} {b : Vars} {p : Vars × List Effect} (h : Adds r b p) (hb : Good b) :
    (handed p.2).flatMap (fun s => readAccesses s.dropLast) ++ readPending p.1 =
      readPending b ++ (fields ';' r).map readAccess := by
  have hstrings : (handed p.2).flatMap (fun s => readAccesses s.dropLast) =
      ((handed p.2).map (fields ';')).flatten.map readAccess := by
    rw [List.flatMap_def, List.map_flatten, List.map_map]
    exact congrArg List.flatten (List.map_congr_left fun s hs => (h.strings s hs).readAccesses)
  have hsplit : fields ';' (Batch.pending b ++ r) = fields ';' (Batch.pending b) ++ fields ';' r := by
    rcases hb.pending with hnil | hlast
    · simp [hnil]
    · exact fields_append hlast r
  rw [hstrings, readPending, readPending, ← List.map_append, ← fields_flatten fun s hs => (h.strings s hs).semicolon,
    h.conserves, hsplit, List.map_append]

theorem fields_ioRecord (size : Nat) (off : Int) : (fields ';' (ioRecord size off)).map readAccess =
    [some (size, off.toNat)] := by
  rw [ioRecord_eq, fields_singleton (semicolon_not_mem _), List.map_singleton, readAccess_accessText]

/-- The reports of a function, and the variables that it leaves, name one path. -/
structure Names (q : List Char) (p : Vars × List Effect) : Prop where
  vars : p.1.path = q
  reports : ∀ n ∈ reports p.2, n.path = q

section Names

variable (op : String) (fd : Int) (size : Nat) (off : Int) (b : Vars)

theorem names_notify (cs ce : Int) : Names b.path (batchReadWriteNotify op fd cs ce size off b) := by
  refine ⟨rfl, fun n hn => ?_⟩
  simp only [batchReadWriteNotify, notifyReadWrite] at hn
  by_cases h : b.lastFd ≠ -1 ∧ b.lastSize ≠ 0
  · rw [if_pos h] at hn
    obtain rfl := List.mem_singleton.mp hn
    rfl
  · rw [if_neg h] at hn
    exact absurd hn List.not_mem_nil

theorem names_record (cs ce : Int) : Names b.path (recordIostr op fd cs ce size off b) := by
  simp only [recordIostr]
  split_ifs
  · exact names_notify op fd size off b cs ce
  · exact ⟨rfl, fun n hn => absurd hn List.not_mem_nil⟩

theorem names_first : Names b.path (batchReadWriteFirst op fd size off b).2 := by
  have hrec := names_record op fd size off b (currStart off) (currEnd size off)
  simp only [batchReadWriteFirst]
  split_ifs
  · exact ⟨rfl, fun n hn => absurd hn List.not_mem_nil⟩
  · exact names_notify op fd size off b _ _
  all_goals exact ⟨hrec.vars, hrec.reports⟩

theorem names_second : Names b.path (batchReadWriteSecond op fd size off b) := by
  unfold batchReadWriteSecond
  split_ifs
  · exact ⟨rfl, fun n hn => absurd hn List.not_mem_nil⟩
  · exact names_notify op fd size off b _ _

end Names

/-- An access in scope goes on with the pending batch of its descriptor, or starts a new one under the path of its file. -/
theorem InScope.run_eq {e : Entry} {c : Call} (h : InScope e c) {b : Vars} (hb : Good b) : e.run true c b =
    if b.lastFd = c.fd then (batchReadWriteFirst e.op c.fd (e.size c) (e.off c) b).2
    else batchReadWriteSecond e.op c.fd (e.size c) (e.off c) { b with path := c.file.chars } := by
  rw [e.run_eq, if_pos h.counts, traced]
  have hfd : c.fd ≠ -1 := by have := h.valid.fd_nonneg; omega
  by_cases hl : b.lastFd = c.fd
  · obtain ⟨he, he'⟩ := h.valid.currEnd_bounds
    have hret : (batchReadWriteFirst e.op c.fd (e.size c) (e.off c) b).1 = 0 :=
      first_ret (hb (by rw [hl]; exact hfd)).range h.valid.args h.valid.off_lt he he'
    simp only [hl, hret, ↓reduceIte]
  · simp only [hl, ↓reduceIte, slowPath, Call.link, h.lookup, fdToPath_path hfd, ne_eq, h.scope, not_false_eq_true]

/-- What it reports, it reports under the path in the buffer or under that of its file, and it leaves that path. -/
theorem InScope.names {e : Entry} {c : Call} (h : InScope e c) {b : Vars} (hb : Good b) :
    Names (if b.lastFd = c.fd then b.path else c.file.chars) (e.run true c b) := by
  rw [h.run_eq hb]
  split_ifs
  · exact names_first e.op c.fd (e.size c) (e.off c) b
  · exact names_second e.op c.fd (e.size c) (e.off c) { b with path := c.file.chars }

theorem names_close (name : String) (fd : Int) (b : Vars) : Names b.path (closeWith name fd b) := by
  simp only [closeWith, notifyReadWrite]
  split_ifs
  · exact ⟨rfl, List.forall_mem_singleton.mpr rfl⟩
  · exact ⟨rfl, List.forall_mem_singleton.mpr rfl⟩
  · exact ⟨rfl, fun n hn => absurd hn List.not_mem_nil⟩

theorem Wrapper.names_close (w : Wrapper) (fd : Int) (b : Vars) : Names b.path (w.close fd b) := by
  cases w <;> exact Batch.names_close _ fd b

/-! ## Runs -/

/-- What a run keeps: everything accessed was told or is to be told, under the paths of its files. -/
structure Tells (t : Int → Option Path) (as : List (List Char × Option (Nat × Nat))) (j : Journal) : Prop where
  tells : j.told ++ j.toTell = as
  good : Good j.vars
  named : j.vars.lastFd ≠ -1 → ∃ p, t j.vars.lastFd = some p ∧ p.chars = j.vars.path

theorem tells_init (t : Int → Option Path) : Tells t [] Journal.init :=
  ⟨by simp [Journal.told, Journal.toTell, Journal.init, readPending, pending, Vars.init], good_init,
    fun hl => absurd rfl hl⟩

/-- Keeping the result of a function whose reports name the path `q`, that of the pending batch if there is one. -/
theorem Journal.tells_keep {j : Journal} {r q : List Char} {p : Vars × List Effect} (hb : Good j.vars)
    (h : Adds r j.vars p) (hq : Names q p) (hpend : j.vars.lastFd ≠ -1 → j.vars.path = q) (x : Option Call) :
    (j.keep x p).told ++ (j.keep x p).toTell = j.told ++ j.toTell ++ ((fields ';' r).map readAccess).map (q, ·) := by
  have hmap : ((j.trace ++ p.2.map (x, ·)).map Prod.snd) = j.trace.map Prod.snd ++ p.2 := by
    rw [List.map_append, List.map_map]
    exact congrArg _ (List.map_id _)
  have htold : (reports p.2).flatMap Notification.told =
      ((handed p.2).flatMap fun s => readAccesses s.dropLast).map (q, ·) := by
    rw [handed_eq, List.flatMap_map, List.map_flatMap]
    refine List.flatMap_congr fun n hn => ?_
    rw [Notification.told, hq.reports n hn]
  have hold : j.toTell = (readPending j.vars).map (q, ·) := by
    by_cases hl : j.vars.lastFd = -1
    · simp [Journal.toTell, readPending, Batch.pending, hl]
    · rw [Journal.toTell, hpend hl]
  rw [hold, List.append_assoc, ← List.map_append, ← h.read hb, List.map_append, ← htold, ← List.append_assoc]
  simp only [Journal.told, Journal.toTell, Journal.keep, hmap, reports_append, List.flatMap_append, hq.vars]

section Step

variable {w : Wrapper} {t : Int → Option Path} {as : List (List Char × Option (Nat × Nat))} {j : Journal}
  (h : Tells t as j)
include h

/-- An access through the wrapper. -/
theorem Tells.access {e : Entry} {c : Call} (he : InScope e c) (hfix : ∀ p, t c.fd = some p → p = c.file)
    (hkeep : j.vars.lastFd ≠ -1 → c.fd ≠ j.vars.lastFd → c.file.chars = j.vars.path) :
    Tells (Function.update t c.fd (some c.file)) (as ++ [(c.file.chars, some (e.size c, (e.off c).toNat))])
      (j.keep (some c) (e.run true c j.vars)) := by
  have hadds := run_adds he h.good
  have hpath : j.vars.lastFd ≠ -1 → j.vars.path = c.file.chars := by
    intro hl
    by_cases hfd : j.vars.lastFd = c.fd
    · obtain ⟨p, hp, hchars⟩ := h.named hl
      rw [hfd] at hp
      rw [← hchars, hfix p hp]
    · exact (hkeep hl (Ne.symm hfd)).symm
  have hnames : Names c.file.chars (e.run true c j.vars) := by
    have hn := he.names h.good
    have hfd : c.fd ≠ -1 := by have := he.valid.fd_nonneg; omega
    by_cases hl : j.vars.lastFd = c.fd
    · rw [if_pos hl, hpath (by rw [hl]; exact hfd)] at hn
      exact hn
    · rw [if_neg hl] at hn
      exact hn
  refine ⟨?_, hadds.good, fun hl => ?_⟩
  · rw [Journal.tells_keep h.good hadds hnames hpath, h.tells, fields_ioRecord]
    rfl
  · -- the descriptor of the batch is that of the access
    have hlast : (e.run true c j.vars).1.lastFd = c.fd := by
      rw [he.run_eq h.good]
      by_cases hfd : j.vars.lastFd = c.fd
      · rw [if_pos hfd]
        exact (first_names e.op c.fd (e.size c) (e.off c) j.vars).2.elim (·.trans hfd) id
      · rw [if_neg hfd, batchReadWriteSecond, if_neg he.valid.args]
        rfl
    exact ⟨c.file, by simp [Journal.keep, hlast], by simp only [Journal.keep]; exact hnames.vars.symm⟩

/-- The table learns the descriptor of an access through another wrapper. -/
theorem Tells.learn {c : Call} (hfix : ∀ p, t c.fd = some p → p = c.file) :
    Tells (Function.update t c.fd (some c.file)) as j := by
  refine ⟨h.tells, h.good, fun hl => ?_⟩
  obtain ⟨p, hp, hpath⟩ := h.named hl
  by_cases hfd : j.vars.lastFd = c.fd
  · rw [hfd] at hp ⊢
    exact ⟨c.file, by simp, by rw [← hfix p hp, hpath]⟩
  · exact ⟨p, by rw [Function.update_of_ne hfd]; exact hp, hpath⟩

/-- A close tells what was to be told, or nothing. -/
theorem Tells.closeWith (name : String) (fd : Int) :
    Tells (if fd = -1 then t else Function.update t fd none) as (j.keep none (closeWith name fd j.vars)) := by
  have hadds := close_adds name fd h.good
  refine ⟨?_, hadds.good, fun hl => ?_⟩
  · rw [Journal.tells_keep h.good hadds (Batch.names_close name fd j.vars) fun _ => rfl, h.tells]
    simp
  · simp only [Journal.keep, Batch.closeWith] at hl ⊢
    by_cases hc : (fd = -1 ∧ j.vars.lastFd ≠ -1) ∨ (fd ≠ -1 ∧ fd = j.vars.lastFd)
    · rw [if_pos hc] at hl
      exact absurd rfl hl
    · rw [if_neg hc] at hl ⊢
      obtain ⟨p, hp, hpath⟩ := h.named hl
      refine ⟨p, ?_, hpath⟩
      split_ifs with hfd
      · exact hp
      · rw [Function.update_of_ne (fun heq => hc (Or.inr ⟨hfd, heq.symm⟩))]
        exact hp

theorem Tells.close (w : Wrapper) (fd : Int) :
    Tells (if fd = -1 then t else Function.update t fd none) as (j.keep none (w.close fd j.vars)) := by
  cases w <;> exact h.closeWith _ fd

end Step

/-- A run in which every lookup keeps the path of a pending batch. -/
theorem Tells.run {w : Wrapper} {es : List Event} : ∀ {t : Int → Option Path}
    {as : List (List Char × Option (Nat × Nat))} {j : Journal}, Tells t as j → (∀ e ∈ es, e.InScope) → NamesFixed t es →
    EachStep (Journal.step w) (KeepsPath w) j es →
    (es.foldl (Journal.step w) j).told ++ (es.foldl (Journal.step w) j).toTell =
      as ++ es.filterMap (Event.toTell w) := by
  induction es with
  | nil => intro t as j h _ _ _; simpa using h.tells
  | cons e es ih =>
    intro t as j h hes hfix hkeep
    obtain ⟨he, hrest⟩ := List.forall_mem_cons.mp hes
    obtain ⟨hk, hkeep⟩ := hkeep
    rw [List.foldl_cons]
    cases e with
    | access e c =>
      by_cases hw : e.wrapper = w
      · have hstep : Journal.step w j (.access e c) = j.keep (some c) (e.run true c j.vars) := if_pos hw
        have hfd : c.fd ≠ -1 := by have := he.valid.fd_nonneg; omega
        have hsame : j.vars.lastFd ≠ -1 → c.fd ≠ j.vars.lastFd → c.file.chars = j.vars.path := by
          intro hl hne
          refine hk hw he.counts hl hne _ ?_
          rw [Call.link, he.lookup, if_pos rfl, fdToPath_path hfd]
        have h1 := h.access he hfix.1 hsame
        rw [← hstep] at h1
        have htell : Event.toTell w (.access e c) = some (c.file.chars, some (e.size c, (e.off c).toNat)) := if_pos hw
        rw [ih h1 hrest hfix.2 hkeep, List.filterMap_cons_some htell, List.append_assoc]
        rfl
      · have hstep : Journal.step w j (.access e c) = j := if_neg hw
        have htell : Event.toTell w (.access e c) = none := if_neg hw
        rw [hstep] at hkeep ⊢
        rw [ih (h.learn hfix.1) hrest hfix.2 hkeep, List.filterMap_cons_none htell]
    | close fd =>
      rw [List.filterMap_cons_none rfl]
      by_cases hfd : fd = -1
      · have hstep : Journal.step w j (.close fd) = j := if_pos hfd
        rw [hstep] at hkeep ⊢
        -- there is no descriptor `-1` in the table that matters
        have h1 : Tells (Function.update t fd none) as j := by
          refine ⟨h.tells, h.good, fun hl => ?_⟩
          obtain ⟨p, hp, hpath⟩ := h.named hl
          exact ⟨p, by rw [Function.update_of_ne (by rw [hfd]; exact hl)]; exact hp, hpath⟩
        exact ih h1 hrest hfix hkeep
      · have hstep : Journal.step w j (.close fd) = j.keep none (w.close fd j.vars) := if_neg hfd
        have h1 := h.close w fd
        rw [if_neg hfd, ← hstep] at h1
        exact ih h1 hrest hfix hkeep
    | exit =>
      rw [List.filterMap_cons_none rfl]
      have h1 := h.close w (-1)
      rw [if_pos rfl] at h1
      exact ih h1 hrest hfix hkeep

/-- The accesses without their paths. -/
theorem Journal.told_snd (j : Journal) :
    j.told.map Prod.snd = (j.strings.map fun s => readAccesses s.dropLast).flatten := by
  rw [Journal.told, Journal.strings, handed_eq, List.map_map, List.map_flatMap, List.flatMap_def]
  refine congrArg List.flatten (List.map_congr_left fun n _ => ?_)
  rw [Notification.told, List.map_map]
  exact List.map_id _

end Cosmost.Batch
