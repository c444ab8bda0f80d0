import Cosmost.Batch.Codec
import Cosmost.Fs.Format
import Cosmost.Lib.JsonText
import Mathlib.Data.List.Forall2

/-!
# The record of a batch (`notify.c`)

`notify_read_write` prints a report of the data wrappers as one object: the path as it stands, the block range, and the
accesses of the batch in the member `RW`. `prints_rwText` says that the text denotes its members where the path needs no
escape, and `path_read_iff` that the path is read back only then.

A character stands for a byte, and texts are read byte by byte.
-/

namespace Cosmost.Batch

open Cosmost.Lib Cosmost.Fs

/-- The text of `notify_read_write`; `str` is the access string with its last `;`. -/
def rwText (tid : Int) (t : Timeval) (op : String) (path : List Char) (size : Nat) (off : Int)
    (str : Option (List Char)) : List Char :=
  "\x7b\"TID\":".toList ++ (signed tid ++ (",\"OP\":\"".toList ++ (op.toList ++ ("\",\"PATH\":\"".toList ++
    (path ++ ("\",\"TS\":".toList ++ (stamp t ++ (",\"SIZE\":".toList ++ (decimal size ++ (",\"OFF\":".toList ++
      (signed off ++ (",\"RW\":\"".toList ++ ((match str with
        | some str => str.dropLast
        | none => "NA".toList) ++ "\"\x7d".toList)))))))))))))

/-- The text of a report, at a time. -/
def Notification.text (tid : Int) (t : Timeval) (n : Notification) : List Char :=
  rwText tid t n.op n.path n.size n.off (some n.str)

/-- The members of that text, as printed: those before the path, and those behind it. -/
def Notification.before (tid : Int) (n : Notification) : List (List Char × List Char) :=
  [("TID".toList, signed tid), ("OP".toList, quoted n.op.toList)]

def Notification.behind (t : Timeval) (n : Notification) : List (List Char × List Char) :=
  [("TS".toList, stamp t), ("SIZE".toList, decimal n.size), ("OFF".toList, signed n.off),
    ("RW".toList, quoted n.str.dropLast)]

/-- What the text denotes. -/
def Notification.members (tid : Int) (t : Timeval) (n : Notification) : List (List Char × Json) :=
  [("TID".toList, .num (signed tid)), ("OP".toList, .str n.op.toList), ("PATH".toList, .str n.path),
    ("TS".toList, .num (stamp t)), ("SIZE".toList, .num (decimal n.size)), ("OFF".toList, .num (signed n.off)),
    ("RW".toList, .str n.str.dropLast)]

/-- The text is an object of printed members. -/
theorem Notification.text_eq (tid : Int) (t : Timeval) (n : Notification) :
    n.text tid t = objectText (n.before tid ++ ("PATH".toList, quoted n.path) :: n.behind t) := by
  have h1 : "\x7b\"TID\":".toList = '{' :: '"' :: ("TID".toList ++ ['"', ':']) := by simp
  have h2 : ",\"OP\":\"".toList = ',' :: '"' :: ("OP".toList ++ ['"', ':', '"']) := by simp
  have h3 : "\",\"PATH\":\"".toList = '"' :: ',' :: '"' :: ("PATH".toList ++ ['"', ':', '"']) := by simp
  have h4 : "\",\"TS\":".toList = '"' :: ',' :: '"' :: ("TS".toList ++ ['"', ':']) := by simp
  have h5 : ",\"SIZE\":".toList = ',' :: '"' :: ("SIZE".toList ++ ['"', ':']) := by simp
  have h6 : ",\"OFF\":".toList = ',' :: '"' :: ("OFF".toList ++ ['"', ':']) := by simp
  have h7 : ",\"RW\":\"".toList = ',' :: '"' :: ("RW".toList ++ ['"', ':', '"']) := by simp
  have h8 : "\"\x7d".toList = ['"', '}'] := by simp
  unfold Notification.text rwText
  rw [h1, h2, h3, h4, h5, h6, h7, h8]
  simp only [Notification.before, Notification.behind, objectText, membersText, quoted, List.append_assoc,
    List.cons_append, List.nil_append]

section Prints

variable (tid : Int) (t : Timeval) (n : Notification)

theorem prints_signed (i : Int) : Prints (signed i) (.num (signed i)) := prints_num (isNumber_signed i)

/-- The members before the path print their values. -/
theorem Notification.prints_before (hop : Clean n.op.toList) :
    List.Forall₂ PrintsMember (n.before tid) [("TID".toList, .num (signed tid)), ("OP".toList, .str n.op.toList)] := by
  have htid : Clean "TID".toList := by decide
  have hkey : Clean "OP".toList := by decide
  exact .cons (PrintsMember.num htid (isNumber_signed tid)) (.cons (PrintsMember.str hkey hop) .nil)

/-- So do those behind it. -/
theorem Notification.prints_behind (hrw : Clean n.str.dropLast) :
    List.Forall₂ PrintsMember (n.behind t) [("TS".toList, .num (stamp t)), ("SIZE".toList, .num (decimal n.size)),
      ("OFF".toList, .num (signed n.off)), ("RW".toList, .str n.str.dropLast)] := by
  have h1 : Clean "TS".toList := by decide
  have h2 : Clean "SIZE".toList := by decide
  have h3 : Clean "OFF".toList := by decide
  have h4 : Clean "RW".toList := by decide
  exact .cons (PrintsMember.num h1 (isNumber_stamp t)) (.cons (PrintsMember.num h2 (isNumber_decimal n.size))
    (.cons (PrintsMember.num h3 (isNumber_signed n.off)) (.cons (PrintsMember.str h4 hrw) .nil)))

/-- **A report with a clean path denotes its members.** -/
theorem Notification.prints_text (hop : Clean n.op.toList) (hpath : Clean n.path) (hrw : Clean n.str.dropLast) :
    Prints (n.text tid t) (.obj (n.members tid t)) := by
  have hkey : Clean "PATH".toList := by decide
  rw [n.text_eq]
  exact Prints.object (List.rel_append (n.prints_before tid hop)
    (.cons (PrintsMember.str hkey hpath) (n.prints_behind t hrw)))

/-- A reader finds the path only if it is clean. -/
theorem Notification.path_read_iff (hop : Clean n.op.toList) (hrw : Clean n.str.dropLast) :
    (∃ js, IsJson (n.text tid t) (.obj js) ∧ valuesAt js "PATH".toList = [.str n.path]) ↔ Clean n.path := by
  have hkey : Clean "PATH".toList := by decide
  have htid : Clean "TID".toList := by decide
  constructor
  · rintro ⟨js, hjs, hread⟩
    rw [n.text_eq] at hjs
    have hop' : List.Forall₂ PrintsMember [("OP".toList, quoted n.op.toList)] [("OP".toList, .str n.op.toList)] :=
      (List.forall₂_cons.mp (n.prints_before tid hop)).2
    exact clean_of_among hop' hkey (by simp) htid (prints_signed tid) (by simp) hjs hread
  · intro hpath
    exact ⟨_, (n.prints_text tid t hop hpath hrw).isJson, by simp [Notification.members, valuesAt]⟩

end Prints

end Cosmost.Batch
