import Cosmost.Fs.Scope
import Cosmost.Lib.Json

/-!
# The records of `notify.c`

`notify_rename`, `notify_unlink` and `notify_create` print their paths between quotes as they stand. The texts are
sequences of bytes, as paths are.

`tells_iff`: a record is one JSON object whose strings are the paths, and no other arguments give the same text, exactly
when the paths are UTF-8 without quotes, backslashes and control characters, and the type of a renamed file is one that
the record has a word for. `forged_rename` is a path that forges the border between the two paths of a rename.
-/

namespace Cosmost.Fs

open Cosmost.Lib

/-! ## Formats -/

/-- `%d` and `%li`. -/
def signed (n : Int) : List Char := if n < 0 then '-' :: decimal n.natAbs else decimal n.natAbs

/-- `struct timeval`. -/
structure Timeval where
  tvSec : Int
  tvUsec : Nat
  deriving DecidableEq, Repr

/-- `%li.%06li` of a time. -/
def stamp (t : Timeval) : List Char :=
  signed t.tvSec ++ '.' :: (List.replicate (6 - (decimal t.tvUsec).length) '0' ++ decimal t.tvUsec)

/-- The record up to its operation. -/
def recordHead (tid : Int) (op : String) : List UInt8 :=
  utf8 "\x7b\"TID\":".toList ++ utf8 (signed tid) ++ utf8 ",\"OP\":\"".toList ++ utf8 op.toList

/-- The record behind its last path. -/
def recordTail (t : Timeval) : List UInt8 := utf8 "\",\"TS\":".toList ++ utf8 (stamp t) ++ utf8 "\x7d".toList

/-- The text of `notify_unlink`. -/
def unlinkText (tid : Int) (t : Timeval) (op : String) (flags : Nat) (path : List UInt8) : List UInt8 :=
  recordHead tid op ++ utf8 "\",\"MODE\":\"".toList ++ utf8 (mode flags).toList ++
    utf8 "\",\"PATH\":\"".toList ++ path ++ recordTail t

/-- The text of `notify_rename`. -/
def renameText (tid : Int) (t : Timeval) (op : String) (flags : Nat) (old new : List UInt8) : List UInt8 :=
  recordHead tid op ++ utf8 "\",\"MODE\":\"".toList ++ utf8 (mode flags).toList ++
    utf8 "\",\"OLD\":\"".toList ++ old ++ utf8 "\",\"NEW\":\"".toList ++ new ++ recordTail t

/-- The text of `notify_create`. -/
def createText (tid : Int) (t : Timeval) (op : String) (path : List UInt8) : List UInt8 :=
  recordHead tid op ++ utf8 "\",\"PATH\":\"".toList ++ path ++ recordTail t

/-- The operations that the wrappers name. -/
def renameOps : List String := ["rename", "renameat"]
def unlinkOps : List String := ["unlink", "unlinkat"]
def createOps : List String := ["creat (create)", "open (create)", "openat (create)", "fopen (create)"]

/-- What the wrappers pass for the type of a file: what the scope check has returned, if that is not `0`. -/
def IsType (type : Nat) : Prop :=
  type ≠ 0 ∧ ∃ path fstat lstat, notify (-1) (sIFREG ||| sIFDIR) path fstat lstat = type

/-- A call of one of the three. -/
inductive Report
  | rename (op : String) (type : Nat) (old new : List UInt8)
  | unlink (op : String) (type : Nat) (path : List UInt8)
  | create (op : String) (path : List UInt8)
  deriving DecidableEq

/-- The text that the call logs. -/
def Report.text (tid : Int) (t : Timeval) : Report → List UInt8
  | .rename op type old new => renameText tid t op type old new
  | .unlink op type path => unlinkText tid t op type path
  | .create op path => createText tid t op path

/-- The arguments are those of a wrapper. -/
def Report.Passed : Report → Prop
  | .rename op type _ _ => op ∈ renameOps ∧ IsType type
  | .unlink op type _ => op ∈ unlinkOps ∧ IsType type
  | .create op _ => op ∈ createOps

/-- What the call reports: its arguments, less the type of a removed file. -/
def Report.told : Report → Report
  | .unlink op _ path => .unlink op 0 path
  | r => r

/-- The paths of the call, by the keys of their members. -/
def Report.paths : Report → List (String × List UInt8)
  | .rename _ _ old new => [("OLD", old), ("NEW", new)]
  | .unlink _ _ path => [("PATH", path)]
  | .create _ path => [("PATH", path)]

/-! ## One object -/

theorem isWhole_decimal (n : Nat) : IsWhole (decimal n) := by
  induction n using Nat.strong_induction_on with
  | _ n ih =>
    have hdigits : ∀ c ∈ decimal n, c.isDigit = true := fun c hc => isDigit_of_mem_decimal hc
    have hne : decimal n ≠ [] := List.length_pos_iff.mp (length_decimal_pos n)
    by_cases hn : n < 10
    · have hone : decimal n = [n.digitChar] := Nat.toDigits_of_lt_base hn
      by_cases hzero : n.digitChar = '0'
      · exact Or.inl (by rw [hone, hzero])
      · exact Or.inr ⟨⟨hne, hdigits⟩, by simpa [hone] using hzero⟩
    · rw [Nat.not_lt] at hn
      have hsplit : decimal n = decimal (n / 10) ++ [(n % 10).digitChar] := Nat.toDigits_of_base_le (by omega) hn
      rcases ih (n / 10) (by omega) with hzero | ⟨-, hhead⟩
      · have hz : n / 10 = 0 := decimal_injective (hzero.trans rfl)
        omega
      · refine Or.inr ⟨⟨hne, hdigits⟩, ?_⟩
        obtain ⟨c, cs, hcs⟩ := List.exists_cons_of_ne_nil (List.length_pos_iff.mp (length_decimal_pos (n / 10)))
        rw [hcs] at hhead
        rw [hsplit, hcs]
        exact hhead

theorem isNumber_signed (n : Int) : IsNumber (signed n) := by
  by_cases hn : n < 0
  · exact ⟨['-'], decimal n.natAbs, [], [], by simp [signed, hn], Or.inr rfl, isWhole_decimal _, Or.inl rfl, Or.inl rfl⟩
  · exact ⟨[], decimal n.natAbs, [], [], by simp [signed, hn], Or.inl rfl, isWhole_decimal _, Or.inl rfl, Or.inl rfl⟩

theorem isNumber_decimal (n : Nat) : IsNumber (decimal n) :=
  ⟨[], decimal n, [], [], by simp, Or.inl rfl, isWhole_decimal n, Or.inl rfl, Or.inl rfl⟩

theorem isNumber_stamp (t : Timeval) : IsNumber (stamp t) := by
  have hfrac : Digits (List.replicate (6 - (decimal t.tvUsec).length) '0' ++ decimal t.tvUsec) := by
    refine ⟨by simp [List.length_pos_iff.mp (length_decimal_pos _)], fun c hc => ?_⟩
    rcases List.mem_append.mp hc with hc | hc
    · rw [List.eq_of_mem_replicate hc]
      rfl
    · exact isDigit_of_mem_decimal hc
  by_cases hn : t.tvSec < 0
  · exact ⟨['-'], decimal t.tvSec.natAbs, _, [], by simp [stamp, signed, hn], Or.inr rfl, isWhole_decimal _,
      Or.inr ⟨_, hfrac, rfl⟩, Or.inl rfl⟩
  · exact ⟨[], decimal t.tvSec.natAbs, _, [], by simp [stamp, signed, hn], Or.inl rfl, isWhole_decimal _,
      Or.inr ⟨_, hfrac, rfl⟩, Or.inl rfl⟩

/-- The members with strings, up to the end of the record. -/
def stringsText (t : Timeval) : List (String × List Char) → List Char
  | [] => ',' :: '"' :: ("TS".toList ++ '"' :: ':' :: (stamp t ++ ['}']))
  | (k, s) :: ms => ',' :: '"' :: (k.toList ++ '"' :: ':' :: '"' :: (s ++ '"' :: stringsText t ms))

/-- A record with given strings. -/
def recordText (tid : Int) (t : Timeval) (ms : List (String × List Char)) : List Char :=
  '{' :: '"' :: ("TID".toList ++ '"' :: ':' :: (signed tid ++ stringsText t ms))

/-- The members of that record. -/
def recordMembers (tid : Int) (t : Timeval) (ms : List (String × List Char)) : List (List Char × Json) :=
  ("TID".toList, .num (signed tid)) :: (ms.map (fun m => (m.1.toList, .str m.2)) ++ [("TS".toList, .num (stamp t))])

theorem stringsText_begins (t : Timeval) (ms : List (String × List Char)) :
    ∃ i, stringsText t ms = ',' :: '"' :: i := by
  cases ms with
  | nil => exact ⟨_, rfl⟩
  | cons m ms => exact ⟨_, rfl⟩

section Object

variable {tid : Int} {t : Timeval} {ms : List (String × List Char)} (hkeys : ∀ m ∈ ms, Clean m.1.toList)
include hkeys

theorem members_stringsText (hclean : ∀ m ∈ ms, Clean m.2) :
    Members (stringsText t ms) (ms.map (fun m => (m.1.toList, .str m.2)) ++ [("TS".toList, .num (stamp t))]) [] := by
  induction ms with
  | nil =>
    refine Members.cons_member (by decide) ?_ (Members.stop (Token.here []))
    refine Reads.num (isNumber_stamp t) fun c hc => ?_
    rw [← Option.mem_some_iff.mp hc]
    rfl
  | cons m ms ih =>
    have hm := List.forall_mem_cons.mp hkeys
    have hc := List.forall_mem_cons.mp hclean
    exact Members.cons_member hm.1 (Reads.str (hc.1.unquotes _)) (ih hm.2 hc.2)

/-- A record with clean strings is the object of its members. -/
theorem isJson_recordText (hclean : ∀ m ∈ ms, Clean m.2) :
    IsJson (recordText tid t ms) (.obj (recordMembers tid t ms)) := by
  obtain ⟨i, hi⟩ := stringsText_begins t ms
  refine ⟨[], Reads.cons_member (by decide) ?_ (members_stringsText hkeys hclean), by simp⟩
  refine Reads.num (isNumber_signed tid) fun c hc => ?_
  rw [hi, List.head?_cons, Option.mem_some_iff] at hc
  rw [← hc]
  rfl

/-- The strings of the members that are read are clean, or are not the strings of the record. -/
theorem clean_of_members (hnodup : (ms.map Prod.fst).Nodup) {js : List (List Char × Json)} {r : List Char}
    (h : Members (stringsText t ms) js r)
    (hread : ∀ m ∈ ms, Clean m.2 ∨ valuesAt js m.1.toList = [.str m.2]) : ∀ m ∈ ms, Clean m.2 := by
  induction ms generalizing js with
  | nil => exact fun m hm => absurd hm List.not_mem_nil
  | cons m ms ih =>
    obtain ⟨k, s⟩ := m
    have hm := List.forall_mem_cons.mp hkeys
    obtain ⟨i, hi⟩ := stringsText_begins t ms
    rw [stringsText, hi] at h
    obtain ⟨x, j, js', rfl, hx, hms⟩ := h.member hm.1
    obtain ⟨d, rfl, hd⟩ := hx.of_quote
    have hs : Clean s ∧ j = ',' :: '"' :: i := by
      rcases hread (k, s) List.mem_cons_self with hs | hv
      · exact ⟨hs, (Unquotes.of_clean hs hd).2⟩
      · rw [valuesAt_cons, if_pos rfl] at hv
        obtain rfl : d = s := by simpa using (List.cons.inj hv).1
        exact hd.clean (by decide)
    rw [hs.2, ← hi] at hms
    have hnd := List.nodup_cons.mp hnodup
    refine List.forall_mem_cons.mpr ⟨hs.1, ih hm.2 hnd.2 hms fun m' hm' => ?_⟩
    rcases hread m' (List.mem_cons_of_mem _ hm') with hc | hv
    · exact Or.inl hc
    · rw [valuesAt_cons, if_neg] at hv
      · exact Or.inr hv
      · intro hk
        refine hnd.1 (List.mem_map.mpr ⟨m', hm', ?_⟩)
        exact (String.toList_injective hk).symm

end Object

/-- The value at the key of one of the strings. -/
theorem valuesAt_strings {ms : List (String × List Char)} (hnodup : (ms.map Prod.fst).Nodup)
    {m : String × List Char} (hm : m ∈ ms) {rest : List (List Char × Json)} (hrest : valuesAt rest m.1.toList = []) :
    valuesAt (ms.map (fun m => (m.1.toList, .str m.2)) ++ rest) m.1.toList = [.str m.2] := by
  induction ms with
  | nil => exact absurd hm List.not_mem_nil
  | cons m' ms ih =>
    have hnd := List.nodup_cons.mp hnodup
    rw [List.map_cons, List.cons_append, valuesAt_cons]
    rcases List.mem_cons.mp hm with rfl | hm
    · have hothers : valuesAt (ms.map (fun m => (m.1.toList, Json.str m.2))) m.1.toList = [] := by
        simp only [valuesAt, List.map_eq_nil_iff, List.filter_eq_nil_iff, List.mem_map, decide_eq_true_eq]
        rintro _ ⟨q, hq, rfl⟩ hk
        exact hnd.1 (List.mem_map.mpr ⟨q, hq, String.toList_injective hk⟩)
      rw [if_pos rfl, valuesAt_append, hothers, hrest]
      rfl
    · rw [if_neg, ih hnd.2 hm]
      intro hk
      exact hnd.1 (List.mem_map.mpr ⟨m, hm, (String.toList_injective hk).symm⟩)

/-- The members of a record before its paths. -/
def Report.words : Report → List (String × List Char)
  | .rename op type _ _ => [("OP", op.toList), ("MODE", (mode type).toList)]
  | .unlink op type _ => [("OP", op.toList), ("MODE", (mode type).toList)]
  | .create op _ => [("OP", op.toList)]

/-- Paths that are UTF-8 and need no escape. -/
def CleanBytes (path : List UInt8) : Prop := ∃ s, Clean s ∧ utf8 s = path

/-- The record is the text of one JSON object, in which the members of the paths are strings, one for each key, and decode
to the paths. -/
def Report.Decodes (tid : Int) (t : Timeval) (r : Report) : Prop :=
  ∃ cs js, utf8 cs = r.text tid t ∧ IsJson cs (.obj js) ∧
    ∀ m ∈ r.paths, ∃ s, valuesAt js m.1.toList = [.str s] ∧ utf8 s = m.2

/-- Strings of which the paths are the bytes. -/
theorem exists_strings {P : String → List Char → Prop} {ps : List (String × List UInt8)}
    (h : ∀ m ∈ ps, ∃ s, P m.1 s ∧ utf8 s = m.2) :
    ∃ qs : List (String × List Char), qs.map (fun q => (q.1, utf8 q.2)) = ps ∧ ∀ q ∈ qs, P q.1 q.2 := by
  induction ps with
  | nil => exact ⟨[], rfl, by simp⟩
  | cons m ps ih =>
    obtain ⟨s, hs, hm⟩ := h m List.mem_cons_self
    obtain ⟨qs, rfl, hqs⟩ := ih fun m' hm' => h m' (List.mem_cons_of_mem _ hm')
    exact ⟨(m.1, s) :: qs, by rw [List.map_cons, hm], List.forall_mem_cons.mpr ⟨hs, hqs⟩⟩

theorem clean_mode (flags : Nat) : Clean (mode flags).toList := by
  rw [mode]
  split_ifs <;> decide

/-- The text of a record whose paths are UTF-8. -/
theorem Report.text_utf8 (tid : Int) (t : Timeval) (r : Report) {qs : List (String × List Char)}
    (h : qs.map (fun q => (q.1, utf8 q.2)) = r.paths) :
    r.text tid t = utf8 (recordText tid t (r.words ++ qs)) := by
  cases r with
  | rename op type old new =>
    simp only [Report.paths, List.map_eq_cons_iff, List.map_eq_nil_iff, Prod.mk.injEq] at h
    obtain ⟨q, _, rfl, ⟨hk, hs⟩, q', _, rfl, ⟨hk', hs'⟩, rfl⟩ := h
    simp only [Report.text, renameText, recordHead, recordTail, ← hs, ← hs', ← utf8_append]
    refine congrArg utf8 ?_
    simp [recordText, stringsText, Report.words, hk, hk']
  | unlink op type path =>
    simp only [Report.paths, List.map_eq_cons_iff, List.map_eq_nil_iff, Prod.mk.injEq] at h
    obtain ⟨q, _, rfl, ⟨hk, hs⟩, rfl⟩ := h
    simp only [Report.text, unlinkText, recordHead, recordTail, ← hs, ← utf8_append]
    refine congrArg utf8 ?_
    simp [recordText, stringsText, Report.words, hk]
  | create op path =>
    simp only [Report.paths, List.map_eq_cons_iff, List.map_eq_nil_iff, Prod.mk.injEq] at h
    obtain ⟨q, _, rfl, ⟨hk, hs⟩, rfl⟩ := h
    simp only [Report.text, createText, recordHead, recordTail, ← hs, ← utf8_append]
    refine congrArg utf8 ?_
    simp [recordText, stringsText, Report.words, hk]

/-- The keys of a record. -/
def Report.keys : Report → List String
  | .rename .. => ["OP", "MODE", "OLD", "NEW"]
  | .unlink .. => ["OP", "MODE", "PATH"]
  | .create .. => ["OP", "PATH"]

section Decodes

variable {tid : Int} {t : Timeval} {r : Report} {qs : List (String × List Char)}
  (hqs : qs.map (fun q => (q.1, utf8 q.2)) = r.paths)
include hqs

theorem Report.map_fst : (r.words ++ qs).map Prod.fst = r.keys := by
  have hfst : qs.map Prod.fst = r.paths.map Prod.fst := by rw [← hqs, List.map_map]; rfl
  rw [List.map_append, hfst]
  cases r <;> rfl

theorem Report.nodup : ((r.words ++ qs).map Prod.fst).Nodup := by
  rw [r.map_fst hqs]
  cases r <;> simp only [Report.keys] <;> decide

theorem Report.clean_keys : ∀ m ∈ r.words ++ qs, Clean m.1.toList := by
  have hkeys : ∀ k ∈ r.keys, Clean k.toList := by
    cases r <;> simp only [Report.keys] <;> decide
  intro m hm
  exact hkeys _ (r.map_fst hqs ▸ List.mem_map_of_mem hm)

theorem Report.other_keys : ∀ m ∈ r.words ++ qs, "TID".toList ≠ m.1.toList ∧ "TS".toList ≠ m.1.toList := by
  have hkeys : ∀ k ∈ r.keys, "TID".toList ≠ k.toList ∧ "TS".toList ≠ k.toList := by
    cases r <;> simp only [Report.keys] <;> decide
  intro m hm
  exact hkeys _ (r.map_fst hqs ▸ List.mem_map_of_mem hm)

end Decodes

theorem Report.Passed.clean_words {r : Report} (h : r.Passed) : ∀ m ∈ r.words, Clean m.2 := by
  have hops : ∀ op ∈ renameOps ++ unlinkOps ++ createOps, Clean op.toList := by decide
  cases r with
  | rename op type old new =>
    simp only [Report.words, List.forall_mem_cons, List.not_mem_nil, false_implies, implies_true, and_true]
    exact ⟨hops op (by simp [h.1]), clean_mode type⟩
  | unlink op type path =>
    simp only [Report.words, List.forall_mem_cons, List.not_mem_nil, false_implies, implies_true, and_true]
    exact ⟨hops op (by simp [h.1]), clean_mode type⟩
  | create op path =>
    simp only [Report.words, List.forall_mem_cons, List.not_mem_nil, false_implies, implies_true, and_true]
    exact hops op (by simp [show op ∈ createOps from h])

/-- **A record decodes to its paths exactly when they need no escape.** -/
theorem Report.Passed.decodes_iff {r : Report} (h : r.Passed) (tid : Int) (t : Timeval) :
    r.Decodes tid t ↔ ∀ m ∈ r.paths, CleanBytes m.2 := by
  constructor
  · rintro ⟨cs, js, hcs, ⟨rest, hread, -⟩, hpaths⟩
    obtain ⟨qs, hqs, hvalues⟩ := exists_strings (P := fun k s => valuesAt js k.toList = [.str s]) hpaths
    rw [r.text_utf8 tid t hqs] at hcs
    obtain rfl := utf8_injective hcs
    obtain ⟨i, hi⟩ := stringsText_begins t (r.words ++ qs)
    rw [recordText, hi] at hread
    obtain ⟨x, j, ms, hjs, hx, hms⟩ := hread.member (by decide)
    obtain ⟨-, rfl⟩ := hx.of_num (isNumber_signed tid).ne_nil (isNumber_signed tid).numeric (by decide)
    rw [Json.obj.injEq] at hjs
    subst hjs
    rw [← hi] at hms
    have hclean := clean_of_members (r.clean_keys hqs) (r.nodup hqs) hms fun m hm => by
      rcases List.mem_append.mp hm with hm' | hm'
      · exact Or.inl (h.clean_words m hm')
      · have hv := hvalues m hm'
        rw [valuesAt_cons, if_neg (r.other_keys hqs m hm).1] at hv
        exact Or.inr hv
    rw [← hqs]
    intro m hm
    obtain ⟨q, hq, rfl⟩ := List.mem_map.mp hm
    exact ⟨q.2, hclean q (List.mem_append_right _ hq), rfl⟩
  · intro hclean
    obtain ⟨qs, hqs, hq⟩ := exists_strings (P := fun _ s => Clean s) hclean
    have hall : ∀ m ∈ r.words ++ qs, Clean m.2 := fun m hm => by
      rcases List.mem_append.mp hm with hm | hm
      · exact h.clean_words m hm
      · exact hq m hm
    refine ⟨_, _, (r.text_utf8 tid t hqs).symm, isJson_recordText (r.clean_keys hqs) hall, ?_⟩
    rw [← hqs]
    intro m hm
    obtain ⟨q, hq, rfl⟩ := List.mem_map.mp hm
    have hmem : q ∈ r.words ++ qs := List.mem_append_right _ hq
    obtain ⟨htid, hts⟩ := r.other_keys hqs q hmem
    refine ⟨q.2, ?_, rfl⟩
    rw [recordMembers, valuesAt_cons, if_neg htid]
    exact valuesAt_strings (r.nodup hqs) hmem (by rw [valuesAt_cons, if_neg hts]; rfl)

/-! ## What the text determines -/

/-- The operation of a call. -/
def Report.op : Report → String
  | .rename op .. => op
  | .unlink op .. => op
  | .create op _ => op

/-- The record behind the quote that ends its operation. -/
def Report.rest (t : Timeval) : Report → List UInt8
  | .rename _ type old new => utf8 ",\"MODE\":\"".toList ++ (utf8 (mode type).toList ++ 0x22 ::
      (utf8 ",\"OLD\":\"".toList ++ (old ++ 0x22 :: (utf8 ",\"NEW\":\"".toList ++ new)))) ++ recordTail t
  | .unlink _ type path => utf8 ",\"MODE\":\"".toList ++ (utf8 (mode type).toList ++ 0x22 ::
      (utf8 ",\"PATH\":\"".toList ++ path)) ++ recordTail t
  | .create _ path => utf8 ",\"PATH\":\"".toList ++ path ++ recordTail t

theorem Report.text_eq (tid : Int) (t : Timeval) (r : Report) :
    r.text tid t = utf8 "\x7b\"TID\":".toList ++ (utf8 (signed tid) ++ (utf8 ",\"OP\":\"".toList ++
      (utf8 r.op.toList ++ 0x22 :: r.rest t))) := by
  have hmode : utf8 "\",\"MODE\":\"".toList = 0x22 :: utf8 ",\"MODE\":\"".toList := utf8_quote_cons _
  have hold : utf8 "\",\"OLD\":\"".toList = 0x22 :: utf8 ",\"OLD\":\"".toList := utf8_quote_cons _
  have hnew : utf8 "\",\"NEW\":\"".toList = 0x22 :: utf8 ",\"NEW\":\"".toList := utf8_quote_cons _
  have hpath : utf8 "\",\"PATH\":\"".toList = 0x22 :: utf8 ",\"PATH\":\"".toList := utf8_quote_cons _
  cases r <;>
    simp only [Report.text, renameText, unlinkText, createText, Report.op, Report.rest, recordHead, hmode, hold, hnew,
      hpath, List.append_assoc, List.cons_append]

/-- The record has a word for the type of a renamed file. -/
def Report.TypeNamed : Report → Prop
  | .rename _ type _ _ => mode type ≠ "UNKNOWN"
  | _ => True

theorem CleanBytes.no_quote {p : List UInt8} (h : CleanBytes p) : 0x22 ∉ p := by
  obtain ⟨s, hs, rfl⟩ := h
  exact fun hq => (hs _ (quote_mem_utf8 hq)).1 rfl

theorem no_quote_of_clean {s : List Char} (hs : Clean s) : 0x22 ∉ utf8 s := CleanBytes.no_quote ⟨s, hs, rfl⟩

/-- A path without a quote, a border with one and another such path determine both. -/
theorem eq_of_border {a b a' b' m : List UInt8} (ha : 0x22 ∉ a) (hb : 0x22 ∉ b)
    (h : a' ++ 0x22 :: (m ++ b') = a ++ 0x22 :: (m ++ b)) : a' = a ∧ b' = b := by
  -- there are no more quotes on the left than on the right
  have hcount := congrArg (List.count 0x22) h
  simp only [List.count_append, List.count_cons_self, List.count_eq_zero_of_not_mem ha,
    List.count_eq_zero_of_not_mem hb] at hcount
  have ha' : List.count 0x22 a' = 0 := by omega
  obtain ⟨rfl, hrest⟩ := eq_of_append_cons (List.count_eq_zero.mp ha') ha h
  exact ⟨rfl, List.append_cancel_left hrest⟩

/-- What the scope check returns is a type and nothing more. -/
theorem notify_and (fd : Int) (flags : Nat) (path : List Char) (fstat lstat : StatResult) :
    notify fd flags path fstat lstat &&& sIFMT = notify fd flags path fstat lstat := by
  have hidem : ∀ x, x &&& sIFMT &&& sIFMT = x &&& sIFMT := fun x => by rw [Nat.and_assoc, Nat.and_self]
  rw [notify]
  cases skipPath path with
  | true => simp
  | false =>
    cases (if 0 < fd then fstat else lstat) with
    | error errno =>
      by_cases h : errno = eNOENT ∨ errno = ePERM
      · simp only [h, ↓reduceIte, Bool.false_eq_true, hidem]
      · simp [h]
    | mode stMode =>
      by_cases h : flags &&& (stMode &&& sIFMT) = 0
      · simp [h]
      · simp only [h, ↓reduceIte, Bool.false_eq_true, hidem]

theorem IsType.and {type : Nat} (h : IsType type) : type &&& sIFMT = type := by
  obtain ⟨-, path, fstat, lstat, rfl⟩ := h
  exact notify_and ..

/-- The words for types tell them apart. -/
theorem mode_inj {type type' : Nat} (h : IsType type) (h' : IsType type') (hword : mode type ≠ "UNKNOWN")
    (heq : mode type' = mode type) : type' = type := by
  rw [← h.and, ← h'.and]
  rw [mode] at hword
  rw [mode, mode] at heq
  split_ifs at hword heq with h1 h2 h3 h4 h5 h6
  all_goals
    first
      | exact absurd rfl hword
      | exact absurd heq (by decide)
      | rw [‹type' &&& sIFMT = _›, ‹type &&& sIFMT = _›]

/-- Behind the operation stands the word for the type, and what follows it. -/
theorem eq_of_word {t : Timeval} {type type' : Nat} {a b : List UInt8}
    (h : utf8 ",\"MODE\":\"".toList ++ (utf8 (mode type').toList ++ 0x22 :: a) ++ recordTail t
      = utf8 ",\"MODE\":\"".toList ++ (utf8 (mode type).toList ++ 0x22 :: b) ++ recordTail t) :
    mode type' = mode type ∧ a = b := by
  have hcancel := List.append_cancel_left (List.append_cancel_right h)
  obtain ⟨hword, hab⟩ := eq_of_append_cons (no_quote_of_clean (clean_mode type'))
    (no_quote_of_clean (clean_mode type)) hcancel
  exact ⟨String.toList_injective (utf8_injective hword), hab⟩

theorem Report.Passed.no_quote {r : Report} (h : r.Passed) : 0x22 ∉ utf8 r.op.toList := by
  apply no_quote_of_clean
  have hwords := h.clean_words
  cases r <;> exact hwords _ List.mem_cons_self

/-- **The text of a clean record is that of no other arguments.** -/
theorem Report.Passed.told_eq {r r' : Report} (h : r.Passed) (h' : r'.Passed) (hclean : ∀ m ∈ r.paths, CleanBytes m.2)
    (htype : r.TypeNamed) {tid : Int} {t : Timeval} (htext : r'.text tid t = r.text tid t) : r'.told = r.told := by
  rw [r.text_eq, r'.text_eq] at htext
  have hop := List.append_cancel_left (List.append_cancel_left (List.append_cancel_left htext))
  obtain ⟨hop, hrest⟩ := eq_of_append_cons h'.no_quote h.no_quote hop
  have hop : r'.op = r.op := String.toList_injective (utf8_injective hop)
  -- the operation tells the function, so calls of different ones do not meet
  have hdisjoint : (∀ op ∈ renameOps, op ∉ unlinkOps ∧ op ∉ createOps) ∧ ∀ op ∈ unlinkOps, op ∉ createOps := by decide
  cases r with
  | rename op type old new =>
    cases r' with
    | rename op' type' old' new' =>
      obtain rfl : op' = op := hop
      obtain ⟨hmode, hpaths⟩ := eq_of_word hrest
      obtain ⟨rfl, rfl⟩ := eq_of_border (hclean ("OLD", old) (by simp [Report.paths])).no_quote
        (hclean ("NEW", new) (by simp [Report.paths])).no_quote (List.append_cancel_left hpaths)
      obtain rfl := mode_inj h.2 h'.2 htype hmode
      rfl
    | unlink op' type' path' =>
      obtain rfl : op' = op := hop
      exact absurd h'.1 (hdisjoint.1 _ h.1).1
    | create op' path' =>
      obtain rfl : op' = op := hop
      exact absurd h' (hdisjoint.1 _ h.1).2
  | unlink op type path =>
    cases r' with
    | rename op' type' old' new' =>
      obtain rfl : op' = op := hop
      exact absurd h.1 (hdisjoint.1 _ h'.1).1
    | unlink op' type' path' =>
      obtain rfl : op' = op := hop
      obtain ⟨-, hpath⟩ := eq_of_word hrest
      obtain rfl : path' = path := List.append_cancel_left hpath
      rfl
    | create op' path' =>
      obtain rfl : op' = op := hop
      exact absurd h' (hdisjoint.2 _ h.1)
  | create op path =>
    cases r' with
    | rename op' type' old' new' =>
      obtain rfl : op' = op := hop
      exact absurd h (hdisjoint.1 _ h'.1).2
    | unlink op' type' path' =>
      obtain rfl : op' = op := hop
      exact absurd h (hdisjoint.2 _ h'.1)
    | create op' path' =>
      obtain rfl : op' = op := hop
      obtain rfl : path' = path := List.append_cancel_left (List.append_cancel_right hrest)
      rfl

/-! ## Records that tell what they report -/

/-- No other arguments give the same text, which is one JSON object whose strings decode to the paths. -/
structure Report.Tells (tid : Int) (t : Timeval) (r : Report) : Prop where
  determined : ∀ r' : Report, r'.Passed → r'.text tid t = r.text tid t → r'.told = r.told
  decodes : r.Decodes tid t

/-- The types of a symbolic link and of a block device are passed, and no word tells them apart. -/
theorem isType_unknown : (IsType 0xa000 ∧ mode 0xa000 = "UNKNOWN") ∧ (IsType 0x6000 ∧ mode 0x6000 = "UNKNOWN") :=
  ⟨⟨⟨by decide, "/data/x".toList, .mode 0xa1ff, .mode 0xa1ff, by decide⟩, by decide⟩,
    ⟨by decide, "/data/x".toList, .mode 0x61b0, .mode 0x61b0, by decide⟩, by decide⟩

/-- **A record tells what it reports exactly when its paths are UTF-8 that needs no escape and it has a word for the type of
a renamed file.** -/
theorem tells_iff {r : Report} (h : r.Passed) (tid : Int) (t : Timeval) :
    r.Tells tid t ↔ (∀ m ∈ r.paths, CleanBytes m.2) ∧ r.TypeNamed := by
  constructor
  · intro ht
    refine ⟨(h.decodes_iff tid t).mp ht.decodes, ?_⟩
    cases r with
    | rename op type old new =>
      intro hword
      obtain ⟨other, hother, hmode, hne⟩ : ∃ other, IsType other ∧ mode other = "UNKNOWN" ∧ other ≠ type := by
        by_cases hlink : type = 0xa000
        · exact ⟨0x6000, isType_unknown.2.1, isType_unknown.2.2, by rw [hlink]; decide⟩
        · exact ⟨0xa000, isType_unknown.1.1, isType_unknown.1.2, fun heq => hlink heq.symm⟩
      have hsame := ht.determined (.rename op other old new) ⟨h.1, hother⟩ (by
        simp only [Report.text, renameText, hmode, hword])
      exact hne (by simpa [Report.told] using hsame)
    | unlink => trivial
    | create => trivial
  · rintro ⟨hclean, htype⟩
    exact ⟨fun r' h' htext => h.told_eq h' hclean htype htext, (h.decodes_iff tid t).mpr hclean⟩

/-- A rename in `/data`. -/
def dataRename (old new : String) : Report := .rename "rename" sIFREG (utf8 old.toList) (utf8 new.toList)

theorem dataRename_passed (old new : String) : (dataRename old new).Passed :=
  ⟨by decide, by decide, "/data/x".toList, .mode 0x81a4, .mode 0x81a4, by decide⟩

theorem dataRename_text (old new : String) (tid : Int) (t : Timeval) :
    (dataRename old new).text tid t = utf8 (recordText tid t ((dataRename old new).words ++
      [("OLD", old.toList), ("NEW", new.toList)])) :=
  (dataRename old new).text_utf8 tid t rfl

/-- Renaming `/data/a` to `/data/b`. -/
theorem plain_rename_tells :
    (dataRename "/data/a" "/data/b").Tells 7 ⟨1, 2⟩ ↔
      (∀ m ∈ (dataRename "/data/a" "/data/b").paths, CleanBytes m.2) ∧ (dataRename "/data/a" "/data/b").TypeNamed :=
  tells_iff (dataRename_passed "/data/a" "/data/b") 7 ⟨1, 2⟩

/-- **A quote in the path forges the border between the two paths.** -/
theorem forged_rename :
    (dataRename "/data/a\",\"NEW\":\"/data/b" "/data/c").text 7 ⟨1, 2⟩
      = (dataRename "/data/a" "/data/b\",\"NEW\":\"/data/c").text 7 ⟨1, 2⟩ ∧
    ¬ (dataRename "/data/a" "/data/b\",\"NEW\":\"/data/c").Tells 7 ⟨1, 2⟩ := by
  have htext : (dataRename "/data/a\",\"NEW\":\"/data/b" "/data/c").text 7 ⟨1, 2⟩
      = (dataRename "/data/a" "/data/b\",\"NEW\":\"/data/c").text 7 ⟨1, 2⟩ := by
    rw [dataRename_text, dataRename_text]
    exact congrArg utf8 (by decide)
  refine ⟨htext, fun ht => ?_⟩
  have hsame := ht.determined _ (dataRename_passed _ _) htext
  have hold : utf8 "/data/a\",\"NEW\":\"/data/b".toList = utf8 "/data/a".toList := by
    simpa [dataRename, Report.told] using (Report.rename.inj hsame).2.2.1
  exact absurd (utf8_injective hold) (by decide)

end Cosmost.Fs
