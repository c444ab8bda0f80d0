import Cosmost.Batch.Report
import Cosmost.Lib.Fields

/-!
# Access strings read back

The access string of a report lists the accesses of its batch as `size@offset`, separated by `;`: every record of
`record_iostr` ends with `;`, and `notify_read_write` removes the last one. `readAccesses` reads such a list.

`accesses_read_back`: what is read from the strings that a wrapper hands over, and then from its pending one, are the sizes
and offsets of its accesses. It is the general fact on texts that end with a record (`fields_flatten`), at the strings of
`Reported`.
-/

namespace Cosmost.Batch

open Cosmost.Lib

/-- One access of the list: its size and its offset. -/
def readAccess (s : List Char) : Option (Nat × Nat) :=
  match s.splitOn '@' with
  | [size, off] => do some (← readDecimal size, ← readDecimal off)
  | _ => none

/-- The list as `notify_read_write` prints it. -/
def readAccesses (rw : List Char) : List (Option (Nat × Nat)) := (rw.splitOn ';').map readAccess

/-- The list as it stands in the variables, where it has its last `;`. -/
def readPending (b : Vars) : List (Option (Nat × Nat)) := (fields ';' (pending b)).map readAccess

/-- The size and the offset of an access through the wrapper. -/
def Event.accessed (w : Wrapper) : Event → Option (Nat × Nat)
  | .access e c => if e.wrapper = w then some (e.size c, (e.off c).toNat) else none
  | .close _ | .exit => none

/-- An access as it stands in the list. -/
def accessText (a : Nat × Nat) : List Char := decimal a.1 ++ '@' :: decimal a.2

theorem ioRecord_eq (size : Nat) (off : Int) : ioRecord size off = accessText (size, off.toNat) ++ [';'] := by
  simp [ioRecord, accessText]

theorem semicolon_not_mem (a : Nat × Nat) : ';' ∉ accessText a := by
  intro h
  rcases List.mem_append.mp h with h | h
  · exact not_mem_decimal (by decide) _ h
  · rcases List.mem_cons.mp h with h | h
    · exact absurd h (by decide)
    · exact not_mem_decimal (by decide) _ h

theorem readAccess_accessText (a : Nat × Nat) : readAccess (accessText a) = some a := by
  have h1 : '@' ∉ decimal a.1 := not_mem_decimal (by decide) _
  have h2 : '@' ∉ decimal a.2 := not_mem_decimal (by decide) _
  rw [readAccess, accessText, List.splitOn_append_cons_self, List.splitOn_eq_singleton h1, List.splitOn_eq_singleton h2]
  simp

/-- The records of the events are the texts of their accesses. -/
theorem records_eq (w : Wrapper) (es : List Event) :
    (es.map (Event.record w)).flatten = (((es.filterMap (Event.accessed w)).map accessText).map (· ++ [';'])).flatten := by
  induction es with
  | nil => rfl
  | cons e es ih =>
    rw [List.map_cons, List.flatten_cons, ih]
    cases e with
    | access e c =>
      by_cases hw : e.wrapper = w
      · simp [Event.record, Event.accessed, hw, ioRecord_eq]
      · simp [Event.record, Event.accessed, hw]
    | close fd => rw [List.filterMap_cons_none rfl]; rfl
    | exit => rw [List.filterMap_cons_none rfl]; rfl

/-- A report's string, without its last character, lists the records in it. -/
theorem StrOk.readAccesses {s : List Char} (h : StrOk s) : readAccesses s.dropLast = (fields ';' s).map readAccess := by
  rw [Batch.readAccesses, splitOn_dropLast h.semicolon]

/-- What a run keeps, read back. -/
theorem Reported.read_back {w : Wrapper} {es : List Event} {j : Journal}
    (h : Reported (es.map (Event.record w)).flatten j) :
    (j.strings.map fun s => readAccesses s.dropLast).flatten ++ readPending j.vars =
      (es.filterMap (Event.accessed w)).map some := by
  have hstrings : (j.strings.map fun s => readAccesses s.dropLast) =
      (j.strings.map (fields ';')).map (List.map readAccess) := by
    rw [List.map_map]
    exact List.map_congr_left fun s hs => (h.strings s hs).readAccesses
  have hfields : (j.strings.map (fields ';')).flatten ++ fields ';' (pending j.vars) =
      (es.filterMap (Event.accessed w)).map accessText := by
    rw [← fields_flatten fun s hs => (h.strings s hs).semicolon, h.conserves, records_eq]
    refine fields_records fun r hr => ?_
    obtain ⟨a, -, rfl⟩ := List.mem_map.mp hr
    exact semicolon_not_mem a
  rw [hstrings, ← List.map_flatten, readPending, ← List.map_append, hfields, List.map_map]
  exact List.map_congr_left fun a _ => readAccess_accessText a

/-- **The access lists are read back.** In every run of in-scope accesses, closes and the thread's exit, the accesses that
are read from the strings handed over by a wrapper, and then from its pending one, are the accesses made through it: every
one of them, once, in order, with its size and offset. -/
theorem accesses_read_back (w : Wrapper) (es : List Event) (hes : ∀ e ∈ es, e.InScope) :
    let j := es.foldl Thread.step Thread.init w
    (j.strings.map fun s => readAccesses s.dropLast).flatten ++ readPending j.vars =
      (es.filterMap (Event.accessed w)).map some := by
  intro j
  have h : Reported (es.map (Event.record w)).flatten j := by
    rw [show j = es.foldl (Journal.step w) Journal.init from foldl_step w es Thread.init]
    exact reported_init.run hes
  exact h.read_back

/-- Two reads and the close are read back from the string that the close handed over. -/
theorem sample_reads_back :
    let j := [sampleRead 4096, sampleRead 8192, .close 3].foldl Thread.step Thread.init .read
    (j.strings.map fun s => readAccesses s.dropLast).flatten ++ readPending j.vars =
      [some (4096, 0), some (4096, 4096)] :=
  (accesses_read_back .read [sampleRead 4096, sampleRead 8192, .close 3] fun ev hev => by
    simp only [List.mem_cons, List.not_mem_nil, or_false] at hev
    rcases hev with rfl | rfl | rfl
    · exact ⟨by decide, rfl, by decide, ⟨by decide, by decide, by decide, by decide, by decide⟩⟩
    · exact ⟨by decide, rfl, by decide, ⟨by decide, by decide, by decide, by decide, by decide⟩⟩
    · exact trivial).trans (by rfl)

end Cosmost.Batch
