import Cosmost.Bblog.Entry
import Cosmost.Bblog.Once

/-!
# The log of a process whose threads call `bblog`

`bblog` takes the next number from the counter, formats the record, refuses it if it is too long, and hands it to `_blog`.
`Callers.step` interleaves the calls of any number of threads, with the builtins of `_blog` and of the flushers as steps of
their own. Threads get their numbers in one order and reserve in another, so the records of an entry need not be in the
order of their numbers.

`log_tells_each_record`: in every run that leaves no gap, and in which the counter does not wrap, the entries of the log
are JSON objects, and every record that `bblog` accepted is a member of exactly one of them, or is still on its way.
-/

namespace Cosmost.Bblog

open Cosmost.Lib

/-- A record that `bblog` has numbered, formatted and accepted. -/
structure Formatted where
  number : Nat
  body : List Char
  counter : number < 2 ^ 64
  nulFree : NulFree body
  room : (record (recordKey number) (some body)).length - 1 < bufferSize - 2

namespace Formatted

theorem ext {r r' : Formatted} (hnumber : r.number = r'.number) (hbody : r.body = r'.body) : r = r' := by
  obtain ⟨n, body, _, _, _⟩ := r
  obtain ⟨n', body', _, _, _⟩ := r'
  cases hnumber
  cases hbody
  rfl

instance : DecidableEq Formatted := fun r r' =>
  decidable_of_iff (r.number = r'.number ∧ r.body = r'.body) ⟨fun h => ext h.1 h.2, fun h => h ▸ ⟨rfl, rfl⟩⟩

/-- The key and the body. -/
def entry (r : Formatted) : Nat × List Char := (r.number, r.body)

theorem text_eq (r : Formatted) : Bblog.record (recordKey r.number) (some r.body) = recText r.entry :=
  record_eq r.counter r.body

theorem dropLast_text (r : Formatted) :
    (Bblog.record (recordKey r.number) (some r.body)).dropLast ++ [','] = recText r.entry := by
  rw [Bblog.record, List.dropLast_concat, ← text_eq, Bblog.record]

/-- What `bblog` hands to `_blog`. -/
def record (r : Formatted) : Record where
  body := (Bblog.record (recordKey r.number) (some r.body)).dropLast
  nulFree := fun h => recText_nulFree (r := r.entry) r.nulFree (r.text_eq ▸ List.mem_of_mem_dropLast h)
  short := by
    have hroom := r.room
    rw [List.length_dropLast]
    omega

theorem record_text (r : Formatted) : r.record.text = recText r.entry := r.dropLast_text

/-- The text of a record tells its number and its body. -/
theorem record_injective : Function.Injective Formatted.record := by
  intro r r' h
  have htext : recText r.entry = recText r'.entry := by rw [← record_text, ← record_text, h]
  have hnum : ∀ n, ∀ x ∈ decimal n, isNumeric x = true := fun n => (Fs.isWhole_decimal n).numeric
  have hcolon : "\":".toList = '"' :: [':'] := rfl
  simp only [recText_eq, List.append_cancel_left_eq, hcolon, List.cons_append] at htext
  obtain ⟨hn, hrest⟩ := append_numeric_inj (hnum _) (by decide) (hnum _) (by simp; decide) htext
  have hnumber : r.number = r'.number := (decimal_injective hn).symm
  have hbody : r.body = r'.body := by
    have hcons := (List.cons.inj (List.cons.inj hrest).2).2
    exact (List.append_cancel_right hcons).symm
  exact ext hnumber hbody

end Formatted

/-- The record that a thread has when `cntr()` has given it the number and `vsnprintf` the body, if it is not too long. -/
def formatted (s : State) (body : List Char) (hbody : NulFree body) : Option Formatted :=
  if h : (record (recordKey s.nextCntr) (some body)).length - 1 < bufferSize - 2 then
    some ⟨s.nextCntr, body, Nat.mod_lt _ (by norm_num), hbody, h⟩
  else none

/-- A process, with what its threads have formatted. -/
structure Callers (τ : Type*) where
  conf : Conf τ
  /-- The record in the array `buffer` of a thread that is to call `_blog`. -/
  built : τ → Option Formatted
  /-- What `cntr()` returned so far. -/
  numbers : List Nat
  /-- The records that `bblog` accepted. -/
  told : List Formatted
  /-- Those that it handed to `_blog`. -/
  handed : List Formatted

/-- What a thread does: call `bblog`, up to `_blog`; call `_blog`; call `swap_and_flush_buffer`; go on. -/
inductive CallerMove
  | format (body : List Char) (h : NulFree body)
  | pass
  | flush
  | run

section Callers

variable {τ : Type*}

/-- `cntr()`. -/
def Conf.count (c : Conf τ) : Conf τ := { c with state := { c.state with cntr := c.state.nextCntr } }

/-- A number is taken, and the record is formatted. -/
def Callers.format [DecidableEq τ] (p : Callers τ) (t : τ) (r : Option Formatted) : Callers τ where
  conf := p.conf.count
  built := Function.update p.built t r
  numbers := p.numbers ++ [p.conf.state.nextCntr]
  told := p.told ++ r.toList
  handed := p.handed

/-- The record was handed over. -/
def Callers.pass [DecidableEq τ] (p : Callers τ) (t : τ) (r : Formatted) (c : Conf τ) : Callers τ :=
  { p with conf := c, built := Function.update p.built t none, handed := p.handed ++ [r] }

/-- Nothing is handed over. -/
def Callers.goOn (p : Callers τ) (c : Conf τ) : Callers τ := { p with conf := c }

/-- The moves of the process, as long as it lives. -/
def Callers.step [DecidableEq τ] (A : Allocator) (e : Process) (p : Callers τ) : τ × CallerMove → Option (Callers τ)
  | (t, .format body h) =>
    if p.conf.killed ∨ p.conf.pc t ≠ .idle ∨ p.built t ≠ none then none
    else some (p.format t (formatted p.conf.state body h))
  | (t, .pass) => (p.built t).bind fun r => (p.conf.step A e (t, .blog r.record)).map (p.pass t r)
  | (t, .flush) => if p.built t ≠ none then none else (p.conf.step A e (t, .flush)).map p.goOn
  | (t, .run) => (p.conf.step A e (t, .run)).map p.goOn

/-- After `bblog_init`, with no call. -/
def Callers.Started (A : Allocator) (e : Process) (p : Callers τ) : Prop :=
  p.conf.Started A e ∧ p.built = (fun _ => none) ∧ p.numbers = [] ∧ p.told = [] ∧ p.handed = []

/-- A sound step that leaves no gap. -/
def Callers.Tidy [Fintype τ] (e : Process) (p : Callers τ) : τ × CallerMove → Prop
  | (t, .run) => p.conf.Tidy e (t, .run)
  | _ => True

/-! ## What every step keeps -/

section Steps

variable [Fintype τ] {A : Allocator} {e : Process} {c c' : Conf τ} {p p' : Callers τ} {t : τ}

theorem exec_cntr {x q : Pc} {s s' : State} (hg : Globals e s) (he : e.Fits) (h : exec A e x s = .ok (q, s')) :
    s'.cntr = s.cntr := by
  cases x with
  | add m p =>
    obtain ⟨rfl, -⟩ := exec_add_ok h
    rfl
  | release ptr =>
    obtain ⟨rfl, -⟩ := exec_release_ok h
    rfl
  | rollback m ptr =>
    obtain ⟨rfl, -⟩ := exec_rollback_ok h
    rfl
  | alloc k curr =>
    rcases hg.exec_alloc he A k curr with ⟨n, hex⟩ | ⟨a, s₁, hf, hex⟩ <;> cases hex.symm.trans h
    · rfl
    · exact hf.cntr
  | install k curr new =>
    simp only [exec] at h
    split_ifs at h <;> cases h <;> rfl
  | readPid k ptr =>
    rw [exec_readPid_eq] at h
    cases h
    rfl
  | cas k ptr pid idx =>
    simp only [exec] at h
    split_ifs at h <;> cases h <;> rfl
  | close k ptr idx =>
    simp only [exec] at h
    split_ifs at h
    cases h
    rfl
  | _ =>
    cases h
    rfl

/-- The account of a buffer does not depend on the counter. -/
theorem Conf.Inv.count (h : c.Inv e) : c.count.Inv e :=
  ⟨⟨⟨h.globals.len, h.globals.short⟩, h.globals.own, h.globals.used⟩, h.ledger, h.read⟩

theorem Conf.Laid.count (h : c.Laid e) : c.count.Laid e := ⟨h.start, h.pieces, h.copies, h.closing, h.writing, h.writes⟩

theorem Conf.Counted.counter {handed : List Record} (h : c.Counted handed) : c.count.Counted handed :=
  ⟨h.count, h.making, h.closing⟩

variable [DecidableEq τ]

/-- A step of the logger leaves the counter. -/
theorem step_cntr {x : τ × Move} (h : c.Inv e) (he : e.Fits) (hstep : c.step A e x = some c') :
    c'.state.cntr = c.state.cntr := by
  obtain ⟨t, mv⟩ := x
  rcases step_cases hstep with ⟨q, -, -, rfl⟩ | ⟨rfl, rfl⟩
  · rfl
  · cases hok : exec A e (c.pc t) c.state with
    | error x => rw [run_error hok]
    | ok x =>
      rw [run_ok hok]
      exact exec_cntr h.globals he hok

/-- Whether the thread is to hand over the record. -/
def hasBuilt (r : Formatted) (o : Option Formatted) : Nat := if o = some r then 1 else 0

/-- The numbers that `cntr()` returns when the counter stands at `n`. -/
def numbersFrom (n k : Nat) : List Nat := (List.range' (n + 1) k).map (· % 2 ^ 64)

/-- What every tidy step keeps; `n` is where the counter stood at the start. -/
structure Callers.Ok (e : Process) (n : Nat) (p : Callers τ) : Prop where
  inv : p.conf.Inv e
  laid : p.conf.Laid e
  counted : p.conf.Counted (p.handed.map Formatted.record)
  told : ∀ r, p.told.count r = p.handed.count r + total (hasBuilt r) p.built
  numbers : p.numbers = numbersFrom n p.numbers.length
  next : p.conf.state.nextCntr = (n + 1 + p.numbers.length) % 2 ^ 64
  within : (p.told.map Formatted.number).Sublist p.numbers

/-- A step of the logger is a step of the whole. -/
theorem Callers.Ok.goOn {n : Nat} (h : p.Ok e n) (he : e.Fits) {x : τ × Move} (hx : x.2.handed = [])
    (ht : p.conf.Tidy e x) (hstep : p.conf.step A e x = some c) : (p.goOn c).Ok e n where
  inv := h.inv.step he ht.1 hstep
  laid := h.laid.step h.inv he ht hstep
  counted := by
    have hcounted := h.counted.step h.inv he ht.1 hstep
    rwa [hx, List.append_nil] at hcounted
  told := h.told
  numbers := h.numbers
  next := by
    have hcntr := step_cntr h.inv he hstep
    rw [State.nextCntr, show (p.goOn c).conf.state.cntr = p.conf.state.cntr from hcntr]
    exact h.next
  within := h.within

/-- `bblog` hands a record to `_blog`. -/
theorem Callers.Ok.pass {n : Nat} (h : p.Ok e n) (he : e.Fits) {r : Formatted} (hr : p.built t = some r)
    (hstep : p.conf.step A e (t, .blog r.record) = some c) : (p.pass t r c).Ok e n where
  inv := h.inv.step he (fun h => by cases h) hstep
  laid := h.laid.step h.inv he ⟨fun h => (by cases h), fun h => (by cases h)⟩ hstep
  counted := by
    have hcounted := h.counted.step h.inv he (fun h => by cases h) hstep
    rw [Callers.pass, List.map_append]
    exact hcounted
  told := by
    intro r'
    have hmoved := total_update (hasBuilt r') p.built t none
    have htold := h.told r'
    have hnone : hasBuilt r' none = 0 := rfl
    have hone : [r].count r' = hasBuilt r' (some r) := by simp [hasBuilt, List.count_singleton]
    rw [hr] at hmoved
    simp only [Callers.pass, List.count_append, hone]
    omega
  numbers := h.numbers
  next := by
    have hcntr := step_cntr h.inv he hstep
    rw [State.nextCntr, show (p.pass t r c).conf.state.cntr = p.conf.state.cntr from hcntr]
    exact h.next
  within := h.within

/-- `bblog` takes a number, and accepts or refuses the record. -/
theorem Callers.Ok.format {n : Nat} (h : p.Ok e n) (ht : p.built t = none) {body : List Char} (hbody : NulFree body) :
    (p.format t (formatted p.conf.state body hbody)).Ok e n where
  inv := h.inv.count
  laid := h.laid.count
  counted := h.counted.counter
  told := by
    intro r
    have hmoved := total_update (hasBuilt r) p.built t (formatted p.conf.state body hbody)
    have htold := h.told r
    have hnone : hasBuilt r none = 0 := rfl
    have hone : ∀ o : Option Formatted, o.toList.count r = hasBuilt r o := by
      intro o
      cases o <;> simp [hasBuilt, List.count_singleton]
    rw [ht] at hmoved
    simp only [Callers.format, List.count_append, hone]
    omega
  numbers := by
    have hlast : numbersFrom n (p.numbers.length + 1) = numbersFrom n p.numbers.length ++ [p.conf.state.nextCntr] := by
      rw [h.next, numbersFrom, List.range'_1_concat, List.map_append]
      rfl
    simp only [Callers.format, List.length_append, List.length_singleton, hlast, ← h.numbers]
  next := by
    have hnext := h.next
    simp only [Callers.format, Conf.count, State.nextCntr, List.length_append, List.length_singleton] at hnext ⊢
    omega
  within := by
    rw [Callers.format, List.map_append]
    refine h.within.append ?_
    unfold formatted
    split_ifs
    · exact List.Sublist.refl _
    · exact List.nil_sublist _

/-- **Every tidy step keeps it.** -/
theorem Callers.Ok.step {n : Nat} (h : p.Ok e n) (he : e.Fits) {x : τ × CallerMove} (hx : p.Tidy e x)
    (hstep : p.step A e x = some p') : p'.Ok e n := by
  obtain ⟨t, mv⟩ := x
  cases mv with
  | format body hbody =>
    simp only [Callers.step] at hstep
    split_ifs at hstep with hcan
    cases hstep
    exact h.format (by simpa using (not_or.mp (not_or.mp hcan).2).2) hbody
  | pass =>
    obtain ⟨r, hr, hstep⟩ := Option.bind_eq_some_iff.mp hstep
    obtain ⟨c, hconf, rfl⟩ := Option.map_eq_some_iff.mp hstep
    exact h.pass he hr hconf
  | flush =>
    simp only [Callers.step] at hstep
    split_ifs at hstep
    obtain ⟨c, hconf, rfl⟩ := Option.map_eq_some_iff.mp hstep
    exact h.goOn he rfl ⟨fun h => (by cases h), fun h => (by cases h)⟩ hconf
  | run =>
    obtain ⟨c, hconf, rfl⟩ := Option.map_eq_some_iff.mp hstep
    exact h.goOn he rfl hx hconf

omit [DecidableEq τ] in
/-- After `bblog_init` it holds. -/
theorem Callers.Started.ok (h : p.Started A e) (he : e.Fits) : p.Ok e p.conf.state.cntr := by
  obtain ⟨hconf, hbuilt, hnumbers, htold, hhanded⟩ := h
  refine ⟨hconf.inv he, hconf.laid he, ?_, fun r => ?_, ?_, ?_, ?_⟩
  · rw [hhanded]
    exact hconf.counted
  · rw [htold, hhanded, hbuilt, total_eq_zero (f := hasBuilt r) fun _ => rfl]
    rfl
  · rw [hnumbers]
    rfl
  · rw [hnumbers]
    rfl
  · rw [htold]
    exact List.nil_sublist _

end Steps

/-! ## The log -/

section Log

variable [Fintype τ] {e : Process} {p : Callers τ}

/-- How often a record is still on its way: with a thread that is to call `_blog`, with one that looks for room, or in a
buffer. -/
def Callers.pending (p : Callers τ) (r : Formatted) : Nat :=
  total (hasBuilt r) p.built + p.conf.carried r.record + p.conf.kept r.record

/-- The numbers that `cntr()` returns are different ones until it wraps. -/
theorem nodup_numbersFrom {n k : Nat} (hk : k ≤ 2 ^ 64) : (numbersFrom n k).Nodup := by
  refine List.Nodup.map_on (fun i hi j hj h => ?_) List.nodup_range'
  rw [List.mem_range'_1] at hi hj
  omega

/-- A whole text is the entry of a group. -/
theorem Write.Whole.group {w : Write} (h : w.Whole e) (hfrom : ∀ m ∈ w.taken, ∃ r : Formatted, r.record = m) :
    ∃ g : List Formatted, g ≠ [] ∧ w.text = batchEntry e (g.map Formatted.entry) ∧
      ∀ r, g.count r = w.taken.count r.record := by
  obtain ⟨ms, hne, hperm, htext⟩ := h
  obtain ⟨g, rfl⟩ : ms ∈ Set.range (List.map Formatted.record) := by
    rw [Set.range_list_map]
    exact fun m hm => hfrom m (hperm.mem_iff.mp hm)
  refine ⟨g, fun hnil => hne (by rw [hnil]; rfl), ?_, fun r => ?_⟩
  · have htexts : texts (g.map Formatted.record) = (g.map Formatted.entry).map recText := by
      rw [texts, List.map_map, List.map_map]
      exact List.map_congr_left fun r _ => r.record_text
    rw [htext, htexts, batchEntry]
  · rw [← hperm.count_eq, List.count_map_of_injective _ _ Formatted.record_injective]

theorem Callers.Ok.count_eq {n : Nat} (h : p.Ok e n) (r : Formatted) :
    p.told.count r = p.conf.written r.record + p.pending r := by
  have hcount := h.counted.count r.record
  rw [List.count_map_of_injective _ _ Formatted.record_injective] at hcount
  rw [h.told r, Callers.pending]
  omega

/-- The records of a text were handed over. -/
theorem Callers.Ok.from_told {n : Nat} (h : p.Ok e n) {w : Write} (hw : w ∈ p.conf.writes) {m : Record} (hm : m ∈ w.taken) :
    ∃ r ∈ p.handed, r.record = m := by
  have hwritten : 0 < p.conf.written m := by
    refine Nat.lt_of_lt_of_le (List.count_pos_iff.mpr hm) ?_
    exact List.single_le_sum (fun _ _ => Nat.zero_le _) _ (List.mem_map.mpr ⟨w, hw, rfl⟩)
  have hcount := h.counted.count m
  exact List.mem_map.mp (List.count_pos_iff.mp (by omega))

end Log

/-- Each text of the log is a JSON object with the numbers and the values of a group of records, the records that `bblog`
accepted have different numbers, and each of them is in exactly one place: in one object of the log, or on its way. -/
def Callers.Tells [Fintype τ] (e : Process) (value : List Char → Json) (p : Callers τ) : Prop :=
  ∃ groups : List (List Formatted),
    List.Forall₂ (fun w g => g ≠ [] ∧
      Prints w.text (entryValue e (g.map fun r => (recName r.number, value r.body)))) p.conf.writes groups ∧
    (p.told.map Formatted.number).Nodup ∧
    ∀ r, groups.flatten.count r + p.pending r = if r ∈ p.told then 1 else 0

/-- What every tidy step keeps has the log tell each record once. -/
theorem Callers.Ok.tells {τ : Type*} [Fintype τ] {e : Process} {p : Callers τ} {n : Nat} (h : p.Ok e n)
    (hfew : p.numbers.length ≤ 2 ^ 64) (hname : Clean e.name) {value : List Char → Json}
    (hvalue : ∀ r ∈ p.told, Prints r.body (value r.body)) : p.Tells e value := by
  have hgroup : ∀ w : Write, ∃ g : List Formatted, w ∈ p.conf.writes → g ≠ [] ∧
      w.text = batchEntry e (g.map Formatted.entry) ∧ ∀ r, g.count r = w.taken.count r.record := by
    intro w
    by_cases hw : w ∈ p.conf.writes
    · obtain ⟨g, hg⟩ := (h.laid.writes w hw).group fun m hm => (h.from_told hw hm).imp fun r hr => hr.2
      exact ⟨g, fun _ => hg⟩
    · exact ⟨[], fun hw' => absurd hw' hw⟩
  choose group hgroup using hgroup
  have hwritten : ∀ r, (p.conf.writes.map group).flatten.count r = p.conf.written r.record := by
    intro r
    rw [List.count_flatten, List.map_map, Conf.written]
    exact congrArg List.sum (List.map_congr_left fun w hw => (hgroup w hw).2.2 r)
  have hcount : ∀ r, (p.conf.writes.map group).flatten.count r + p.pending r = p.told.count r := by
    intro r
    rw [hwritten, h.count_eq]
  have hnodup : (p.told.map Formatted.number).Nodup := by
    refine h.within.nodup ?_
    rw [h.numbers]
    exact nodup_numbersFrom hfew
  refine ⟨p.conf.writes.map group, ?_, hnodup, fun r => ?_⟩
  · rw [List.forall₂_map_right_iff, List.forall₂_same]
    intro w hw
    obtain ⟨hne, htext, -⟩ := hgroup w hw
    refine ⟨hne, ?_⟩
    have hmem : ∀ r ∈ group w, r ∈ p.told := by
      intro r hr
      have hle := hcount r
      have hpos : 0 < (p.conf.writes.map group).flatten.count r :=
        List.count_pos_iff.mpr (List.mem_flatten.mpr ⟨_, List.mem_map.mpr ⟨w, hw, rfl⟩, hr⟩)
      exact List.count_pos_iff.mp (by omega)
    have hentries : ∀ x ∈ (group w).map Formatted.entry, Prints x.2 (value x.2) := by
      intro x hx
      obtain ⟨r, hr, rfl⟩ := List.mem_map.mp hx
      exact hvalue r (hmem r hr)
    have hprints := prints_batchEntry hname (fun hnil => hne (List.map_eq_nil_iff.mp hnil)) hentries
    rw [List.map_map] at hprints
    rw [htext]
    exact hprints
  · rw [hcount]
    split_ifs with hr
    · exact List.count_eq_one_of_mem (List.Nodup.of_map _ hnodup) hr
    · exact List.count_eq_zero.mpr hr

/-- **The log tells each record once.** In every run of any number of threads whose moves are tidy, as long as the counter
does not wrap, if the name of the process needs no escape and every body is the text of a value. -/
theorem log_tells_each_record {τ : Type*} [Fintype τ] [DecidableEq τ] (A : Allocator) (e : Process) (he : e.Fits)
    (p : Callers τ) (hp : Reach (Callers.step A e) (Callers.Tidy e) (Callers.Started A e) p)
    (hfew : p.numbers.length ≤ 2 ^ 64) (hname : Clean e.name) (value : List Char → Json)
    (hvalue : ∀ r ∈ p.told, Prints r.body (value r.body)) : p.Tells e value := by
  obtain ⟨n, h⟩ : ∃ n, p.Ok e n :=
    Reach.inv (I := fun p => ∃ n, p.Ok e n) (fun p hp => ⟨_, hp.ok he⟩)
      (fun p x p' ⟨n, h⟩ hx hstep => ⟨n, h.step he hx hstep⟩) hp
  exact h.tells hfew hname hvalue

end Callers

/-! ## Two threads -/

instance {τ : Type*} [Fintype τ] (e : Process) (p : Callers τ) : ∀ x, Decidable (p.Tidy e x)
  | (t, .run) => inferInstanceAs (Decidable (p.conf.Tidy e (t, .run)))
  | (_, .format _ _) | (_, .pass) | (_, .flush) => isTrue trivial

/-- The threads of a process that has just started, with no call. -/
def appCallers (n : Nat) : Callers (Fin n) := ⟨appThreads n, fun _ => none, [], [], []⟩

theorem appCallers_started (n : Nat) : (appCallers n).Started twoPages app :=
  ⟨appThreads_started n, rfl, rfl, rfl, rfl⟩

/-- Two threads take numbers in one order and store in the other; then one of them flushes. -/
def crossed (t u : Fin 2) : List (Fin 2 × CallerMove) :=
  [(t, .format (decimal 5) (decimal_nulFree 5)), (u, .format (decimal 7) (decimal_nulFree 7)), (u, .pass)] ++
    List.replicate 4 (u, .run) ++ (t, .pass) :: List.replicate 4 (t, .run) ++ (u, .flush) :: List.replicate 10 (u, .run)

/-- Their records are told in one text. -/
theorem crossed_told : ∃ p : Callers (Fin 2),
    Reach (Callers.step twoPages app) (Callers.Tidy app) (Callers.Started twoPages app) p ∧
    p.conf.writes.length = 1 ∧ p.Tells app Json.num := by
  have hrun : (runAll (Callers.step twoPages app) (Callers.Tidy app) (appCallers 2) (crossed 0 1)).any
      (fun p => p.conf.writes.length = 1 ∧ p.numbers.length ≤ 2 ^ 64 ∧
        ∀ r ∈ p.told, r.body = decimal 5 ∨ r.body = decimal 7) = true := by decide +kernel
  obtain ⟨p, hp, htest⟩ := Reach.of_runAll (appCallers_started 2) _ _ hrun
  obtain ⟨hwrites, hfew, htold⟩ := of_decide_eq_true htest
  refine ⟨p, hp, hwrites, log_tells_each_record twoPages app app_fits p hp hfew (by decide) Json.num fun r hr => ?_⟩
  rcases htold r hr with h | h <;> rw [h] <;> exact prints_num (Fs.isNumber_decimal _)

end Cosmost.Bblog
