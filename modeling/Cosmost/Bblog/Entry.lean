import Cosmost.Bblog.Agree
import Cosmost.Fs.Format
import Cosmost.Lib.JsonText
import Mathlib.Data.List.Forall2

/-!
# What an entry of the log denotes

An entry of the batched log is the prefix and the records of a group, closed. Where the name of the process needs no escape
and every record is the text of a value, the entry is the text of one JSON object: the pid, the name, and the records as
members of an object, by their counters and in order (`prints_batchEntry`).

A character stands for a byte here, and a text is read byte by byte: a byte from `0x80` on is plain, so a string that is
read is the bytes of the string that UTF-8 decodes them to.
-/

namespace Cosmost.Bblog

open Cosmost.Lib

/-- The key of a record. -/
def recName (n : Nat) : List Char := "REC_".toList ++ decimal n

/-- What an entry denotes whose records denote these values. -/
def entryValue (e : Process) (records : List (List Char × Json)) : Json :=
  .obj [("PID".toList, .num (decimal e.pid)), ("PROC".toList, .str e.name), ("BATCH".toList, .obj records)]

theorem clean_recName (n : Nat) : Clean (recName n) := Clean.append (by decide) (clean_decimal n)

/-- The records behind the first, without their last comma, and the brace behind them. -/
theorem records_membersText (g : List (Nat × List Char)) (r : Nat × List Char) :
    ((r :: g).map recText).flatten.dropLast ++ ['}'] =
      '"' :: (recName r.1 ++ '"' :: ':' :: (r.2 ++ membersText (g.map fun r => (recName r.1, r.2)))) := by
  have hkey : "\"REC_".toList = '"' :: "REC_".toList := rfl
  have hcolon : "\":".toList = ['"', ':'] := rfl
  induction g generalizing r with
  | nil =>
    have htext : ([r].map recText).flatten = '"' :: (recName r.1 ++ '"' :: ':' :: r.2) ++ [','] := by
      simp [recText_eq, recName, hkey, hcolon]
    rw [htext, List.dropLast_concat]
    simp [membersText]
  | cons r' g ih =>
    have hne : ((r' :: g).map recText).flatten ≠ [] := by
      rw [Ne, flatten_recText_eq_nil]
      exact List.cons_ne_nil _ _
    rw [List.map_cons, List.flatten_cons, List.dropLast_append_of_ne_nil hne, List.append_assoc, ih r']
    simp [recText_eq, recName, hkey, hcolon, membersText]

/-- The prefix as it begins an object. -/
theorem prefixText_eq (e : Process) : prefixText e =
    '{' :: '"' :: ("PID".toList ++ '"' :: ':' :: (decimal e.pid ++ ',' :: '"' :: ("PROC".toList ++ '"' :: ':' ::
      '"' :: (e.name ++ '"' :: ',' :: '"' :: ("BATCH".toList ++ ['"', ':', '{'])))) ) := by
  have h1 : "\x7b\"PID\":".toList = '{' :: '"' :: ("PID".toList ++ ['"', ':']) := by simp
  have h2 : ",\"PROC\":\"".toList = ',' :: '"' :: ("PROC".toList ++ ['"', ':', '"']) := by simp
  have h3 : "\",\"BATCH\":\x7b".toList = '"' :: ',' :: '"' :: ("BATCH".toList ++ ['"', ':', '{']) := by simp
  unfold prefixText
  rw [h1, h2, h3]
  simp only [List.append_assoc, List.cons_append, List.nil_append]

/-- An entry as an object of printed members. -/
theorem batchEntry_eq (e : Process) {g : List (Nat × List Char)} (hne : g ≠ []) :
    batchEntry e g = objectText [("PID".toList, decimal e.pid), ("PROC".toList, quoted e.name),
      ("BATCH".toList, objectText (g.map fun r => (recName r.1, r.2)))] := by
  obtain ⟨r, g, rfl⟩ := List.exists_cons_of_ne_nil hne
  have hflat : ((r :: g).map recText).flatten ≠ [] := by
    rw [Ne, flatten_recText_eq_nil]
    exact List.cons_ne_nil _ _
  have hclose : "\x7d\x7d".toList = ['}'] ++ ['}'] := by simp
  rw [batchEntry, List.dropLast_append_of_ne_nil hflat, hclose, List.append_assoc, ← List.append_assoc _ ['}'],
    records_membersText, prefixText_eq]
  simp only [objectText, membersText, quoted, List.map_cons, List.append_assoc, List.cons_append, List.nil_append]

/-- **An entry is the text of one object**, if the name of the process is clean and every record prints a value. -/
theorem prints_batchEntry {e : Process} (hname : Clean e.name) {g : List (Nat × List Char)} (hne : g ≠ [])
    {value : List Char → Json} (h : ∀ r ∈ g, Prints r.2 (value r.2)) :
    Prints (batchEntry e g) (entryValue e (g.map fun r => (recName r.1, value r.2))) := by
  have hrecords : List.Forall₂ PrintsMember (g.map fun r => (recName r.1, r.2))
      (g.map fun r => (recName r.1, value r.2)) := by
    rw [List.forall₂_map_left_iff, List.forall₂_map_right_iff, List.forall₂_same]
    exact fun r hr => ⟨rfl, clean_recName r.1, h r hr⟩
  rw [batchEntry_eq e hne]
  have hpid : Clean "PID".toList := by decide
  have hproc : Clean "PROC".toList := by decide
  have hbatch : Clean "BATCH".toList := by decide
  exact Prints.object (.cons (PrintsMember.num hpid (Fs.isNumber_decimal e.pid)) (.cons (PrintsMember.str hproc hname)
    (.cons ⟨rfl, hbatch, Prints.object hrecords⟩ .nil)))

/-! ## The records of a log -/

/-- The records of the batch of an entry. -/
def batchOf : Json → List Json
  | .obj ms =>
    match valuesAt ms "BATCH".toList with
    | [.obj rs] => rs.map Prod.snd
    | _ => []
  | _ => []

/-- The records that the entries of a log hold, in order. -/
noncomputable def logRecords (log : List (List Char)) : List Json :=
  log.flatMap fun text => ((valueOf text).map batchOf).getD []

/-- The value of a record that is a JSON text. -/
noncomputable def recordValue (body : List Char) : Json := (valueOf body).getD .null

theorem recordValue_eq {t : List Char} {v : Json} (h : Prints t v) : recordValue t = v := by
  rw [recordValue, h.isJson.valueOf, Option.getD_some]

theorem batchOf_entryValue (e : Process) (rs : List (List Char × Json)) : batchOf (entryValue e rs) = rs.map Prod.snd := by
  have hbatch : valuesAt [("PID".toList, Json.num (decimal e.pid)), ("PROC".toList, .str e.name),
      ("BATCH".toList, .obj rs)] "BATCH".toList = [.obj rs] := by simp [valuesAt]
  simp only [batchOf, entryValue, hbatch]

/-- **A log that is made of groups of records holds the values of the records**, however they are grouped. -/
theorem Grouped.logRecords {e : Process} (hname : Clean e.name) {bs : List (List Char)} {log : List (List Char)}
    {groups : List (List (Nat × List Char))} (h : Grouped e bs log groups) (hbs : ∀ b ∈ bs, ∃ v, Prints b v) :
    Bblog.logRecords log = bs.map recordValue := by
  have hvalue : ∀ g ∈ groups, ∀ r ∈ g, Prints r.2 (recordValue r.2) := by
    intro g hg r hr
    have hmem : r.2 ∈ bs := by
      rw [← h.bodies]
      exact List.mem_map_of_mem (List.mem_flatten_of_mem hg hr)
    obtain ⟨v, hv⟩ := hbs r.2 hmem
    rw [recordValue_eq hv]
    exact hv
  have hentry : ∀ g ∈ groups, ((valueOf (batchEntry e g)).map batchOf).getD [] = g.map fun r => recordValue r.2 := by
    intro g hg
    rw [(prints_batchEntry hname (h.nonempty g hg) (hvalue g hg)).isJson.valueOf, Option.map_some, Option.getD_some,
      batchOf_entryValue, List.map_map]
    rfl
  rw [Bblog.logRecords, h.entries, List.flatMap_map, List.flatMap_congr hentry, ← h.bodies, List.map_map, List.map_flatten]
  rfl

/-! ## A process that is still running -/

/-- **The log so far**: the first bodies, in groups. The records of the others are in the current buffer. -/
theorem logAll_grouped {A : Allocator} (hA : Serves A) {e : Process} (he : e.Fits) (n : Nat) {bodies : List (List Char)}
    (hbodies : ∀ b ∈ bodies, NulFree b) {c : Nat}
    (hfits : ∀ r ∈ numbered c bodies, FitsEmpty (prefixText e).length (recText r)) (mem : Nat → Pibr) :
    ∃ s groups i, logAll A e (n + 2) (bodies.map some) (bblogInit A e (.init c mem)) = .ok s ∧
      Grouped e (bodies.take i) (logged s.trace) groups ∧ Running e s (((numbered c bodies).drop i).map recText) := by
  obtain ⟨hr, htr, hc⟩ := bblogInit_running he hA c mem
  have hstart : Batched e (bblogInit A e (.init c mem)) [] [] :=
    ⟨hr, fun _ hm => absurd hm List.not_mem_nil, by rw [htr]; rfl, fun _ hm => absurd hm List.not_mem_nil⟩
  obtain ⟨s, groups, pending, hs, hb, happ⟩ := hstart.run he hA n hbodies (by rwa [hc])
  rw [hc, List.flatten_nil, List.nil_append, List.nil_append] at happ
  have hdrop : (numbered c bodies).drop groups.flatten.length = pending := by rw [← happ, List.drop_left]
  have htake : groups.flatten.map Prod.snd = bodies.take groups.flatten.length := by
    rw [← numbered_snd c bodies, ← List.map_take, ← happ, List.take_left]
  refine ⟨s, groups, groups.flatten.length, hs, ⟨hb.entries, hb.nonempty, htake⟩, ?_⟩
  rw [hdrop]
  exact hb.running

end Cosmost.Bblog
