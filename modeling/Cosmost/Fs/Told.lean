import Cosmost.Fs.Format
import Cosmost.Fs.Replay
import Cosmost.Lib.Fields
import Cosmost.Lib.JsonText
import Mathlib.Data.List.Forall2

/-!
# Reading the records of file calls

The texts of `notify_create`, `notify_unlink`, `notify_rename` and `notify_mmap`, and a reader of what they denote.
`FileRecord.read_back`: a record whose paths need no escape denotes an object, and the reader gets the record back, whole.

A character stands for a byte, as in the texts of the data records.
-/

namespace Cosmost.Fs

open Cosmost.Lib

variable {W : Type*}

/-! ## Texts -/

/-- The text of `notify_mmap`. -/
def mmapText (tid : Int) (t : Timeval) (op : String) (path : List Char) (addr : Nat) (prot : String) (size : Nat)
    (off : Int) : List Char :=
  "\x7b\"TID\":".toList ++ (signed tid ++ (",\"OP\":\"".toList ++ (op.toList ++ ("\",\"PATH\":\"".toList ++
    (path ++ ("\",\"TS\":".toList ++ (stamp t ++ (",\"ADDR\":".toList ++ (decimal addr ++ (",\"SIZE\":".toList ++
      (decimal size ++ (",\"OFF\":".toList ++ (signed off ++ (",\"PROT\":\"".toList ++ (prot.toList ++
        "\"\x7d".toList)))))))))))))))

/-- The text that a record is logged as. The first three are those of `Report.text`, whose paths are bytes. -/
def FileRecord.text (tid : Int) (t : Timeval) : FileRecord → List Char
  | .create r => recordText tid t [("OP", r.op.toList), ("PATH", r.path)]
  | .unlink r => recordText tid t [("OP", r.op.toList), ("MODE", r.mode.toList), ("PATH", r.path)]
  | .rename r => recordText tid t [("OP", r.op.toList), ("MODE", r.mode.toList), ("OLD", r.old), ("NEW", r.new)]
  | .mmap r => mmapText tid t r.op r.path r.addr r.prot r.size r.off

/-- What it denotes. -/
def FileRecord.members (tid : Int) (t : Timeval) : FileRecord → List (List Char × Json)
  | .create r => recordMembers tid t [("OP", r.op.toList), ("PATH", r.path)]
  | .unlink r => recordMembers tid t [("OP", r.op.toList), ("MODE", r.mode.toList), ("PATH", r.path)]
  | .rename r => recordMembers tid t [("OP", r.op.toList), ("MODE", r.mode.toList), ("OLD", r.old), ("NEW", r.new)]
  | .mmap r => [("TID".toList, .num (signed tid)), ("OP".toList, .str r.op.toList), ("PATH".toList, .str r.path),
      ("TS".toList, .num (stamp t)), ("ADDR".toList, .num (decimal r.addr)), ("SIZE".toList, .num (decimal r.size)),
      ("OFF".toList, .num (signed r.off)), ("PROT".toList, .str r.prot.toList)]

/-- The text of a creation is that of `notify_create`, and so on. -/
theorem FileRecord.text_eq (tid : Int) (t : Timeval) :
    (∀ op path, utf8 (FileRecord.text tid t (.create (notifyCreate op path))) = createText tid t op (utf8 path)) ∧
    (∀ op flags path, utf8 (FileRecord.text tid t (.unlink (notifyUnlink op flags path))) =
      unlinkText tid t op flags (utf8 path)) ∧
    ∀ op flags old new, utf8 (FileRecord.text tid t (.rename (notifyRename op flags old new))) =
      renameText tid t op flags (utf8 old) (utf8 new) := by
  refine ⟨fun op path => ?_, fun op flags path => ?_, fun op flags old new => ?_⟩
  · have hpaths : [("PATH", path)].map (fun q => (q.1, utf8 q.2)) = (Report.create op (utf8 path)).paths := rfl
    exact (Report.text_utf8 tid t _ hpaths).symm
  · have hpaths : [("PATH", path)].map (fun q => (q.1, utf8 q.2)) = (Report.unlink op flags (utf8 path)).paths := rfl
    exact (Report.text_utf8 tid t _ hpaths).symm
  · have hpaths : [("OLD", old), ("NEW", new)].map (fun q => (q.1, utf8 q.2)) =
        (Report.rename op flags (utf8 old) (utf8 new)).paths := rfl
    exact (Report.text_utf8 tid t _ hpaths).symm

/-! ## Reading -/

/-- A number that `%lld` has printed. -/
def readSigned : List Char → Option Int
  | '-' :: s => (readDecimal s).map fun n : Nat => -(n : Int)
  | s => (readDecimal s).map Int.ofNat

/-- The operations of `mmap.c`. -/
def mmapOps : List String := ["mmap64", "mmap"]

/-- The string at a key. -/
def stringAt (ms : List (List Char × Json)) (key : String) : Option (List Char) :=
  match valuesAt ms key.toList with
  | [.str s] => some s
  | _ => none

/-- The number at a key, as it is written. -/
def numberAt (ms : List (List Char × Json)) (key : String) : Option (List Char) :=
  match valuesAt ms key.toList with
  | [.num s] => some s
  | _ => none

/-- The record of a file call, if a record of the log is one. -/
def readFileRecord : Json → Option FileRecord
  | .obj ms => do
    let op := String.ofList (← stringAt ms "OP")
    if op ∈ createOps then
      some (.create ⟨op, ← stringAt ms "PATH"⟩)
    else if op ∈ unlinkOps then
      some (.unlink ⟨op, String.ofList (← stringAt ms "MODE"), ← stringAt ms "PATH"⟩)
    else if op ∈ renameOps then
      some (.rename ⟨op, String.ofList (← stringAt ms "MODE"), ← stringAt ms "OLD", ← stringAt ms "NEW"⟩)
    else if op ∈ mmapOps then
      some (.mmap ⟨op, ← stringAt ms "PATH", ← readDecimal (← numberAt ms "ADDR"), String.ofList (← stringAt ms "PROT"),
        ← readDecimal (← numberAt ms "SIZE"), ← readSigned (← numberAt ms "OFF")⟩)
    else none
  | _ => none

/-! ## Records that are read back -/

/-- The record is one of a wrapper. -/
def FileRecord.Passed : FileRecord → Prop
  | .create r => r.op ∈ createOps
  | .unlink r => r.op ∈ unlinkOps ∧ ∃ flags, r.mode = mode flags
  | .rename r => r.op ∈ renameOps ∧ ∃ flags, r.mode = mode flags
  | .mmap r => r.op ∈ mmapOps ∧ ∃ prot flags, r.prot = protStr prot flags

/-- Its paths. -/
def FileRecord.paths : FileRecord → List (List Char)
  | .create r => [r.path]
  | .unlink r => [r.path]
  | .rename r => [r.old, r.new]
  | .mmap r => [r.path]

/-- Its paths need no escape. -/
def FileRecord.Readable (r : FileRecord) : Prop := ∀ p ∈ r.paths, Clean p

theorem readSigned_signed (i : Int) : readSigned (signed i) = some i := by
  by_cases h : i < 0
  · have hneg : -(i.natAbs : Int) = i := by omega
    rw [signed, if_pos h, readSigned, readDecimal_decimal, Option.map_some, hneg]
  · have hpos : (i.natAbs : Int) = i := by omega
    have hdigit : ∀ c ∈ (decimal i.natAbs).head?, c ≠ '-' := by
      rintro c hc rfl
      have hd := isDigit_of_mem_decimal (List.mem_of_mem_head? hc)
      cases hd
    rw [signed, if_neg h]
    unfold readSigned
    split
    · rename_i s heq
      exact absurd rfl (hdigit '-' (by rw [heq]; rfl))
    · simp [hpos]

theorem clean_protStr (prot flags : Nat) : Clean (protStr prot flags).toList := by
  rw [protStr, String.toList_ofList]
  split_ifs <;> decide

/-- A record with strings prints its members. -/
theorem prints_recordText (tid : Int) (t : Timeval) {ms : List (String × List Char)}
    (h : ∀ m ∈ ms, Clean m.1.toList ∧ Clean m.2) : Prints (recordText tid t ms) (.obj (recordMembers tid t ms)) := by
  have hstrings : ∀ ms : List (String × List Char), stringsText t ms =
      membersText (ms.map (fun m => (m.1.toList, quoted m.2)) ++ [("TS".toList, stamp t)]) := by
    intro ms
    induction ms with
    | nil => simp [stringsText, membersText]
    | cons m ms ih => simp [stringsText, membersText, quoted, ih]
  have htext : recordText tid t ms = objectText (("TID".toList, signed tid) ::
      (ms.map (fun m => (m.1.toList, quoted m.2)) ++ [("TS".toList, stamp t)])) := by
    rw [recordText, hstrings, objectText]
  have htid : Clean "TID".toList := by decide
  have hts : Clean "TS".toList := by decide
  have hmembers : List.Forall₂ PrintsMember (ms.map fun m => (m.1.toList, quoted m.2))
      (ms.map fun m => (m.1.toList, Json.str m.2)) := by
    rw [List.forall₂_map_left_iff, List.forall₂_map_right_iff, List.forall₂_same]
    exact fun m hm => PrintsMember.str (h m hm).1 (h m hm).2
  rw [htext]
  exact Prints.object (.cons (PrintsMember.num htid (isNumber_signed tid))
    (List.rel_append hmembers (.cons (PrintsMember.num hts (isNumber_stamp t)) .nil)))

/-- So does the record of a mapping. -/
theorem prints_mmapText (tid : Int) (t : Timeval) {r : MmapRecord} (hop : Clean r.op.toList) (hpath : Clean r.path)
    (hprot : Clean r.prot.toList) :
    Prints (FileRecord.text tid t (.mmap r)) (.obj (FileRecord.members tid t (.mmap r))) := by
  have h1 : "\x7b\"TID\":".toList = '{' :: '"' :: ("TID".toList ++ ['"', ':']) := by simp
  have h2 : ",\"OP\":\"".toList = ',' :: '"' :: ("OP".toList ++ ['"', ':', '"']) := by simp
  have h3 : "\",\"PATH\":\"".toList = '"' :: ',' :: '"' :: ("PATH".toList ++ ['"', ':', '"']) := by simp
  have h4 : "\",\"TS\":".toList = '"' :: ',' :: '"' :: ("TS".toList ++ ['"', ':']) := by simp
  have h5 : ",\"ADDR\":".toList = ',' :: '"' :: ("ADDR".toList ++ ['"', ':']) := by simp
  have h6 : ",\"SIZE\":".toList = ',' :: '"' :: ("SIZE".toList ++ ['"', ':']) := by simp
  have h7 : ",\"OFF\":".toList = ',' :: '"' :: ("OFF".toList ++ ['"', ':']) := by simp
  have h8 : ",\"PROT\":\"".toList = ',' :: '"' :: ("PROT".toList ++ ['"', ':', '"']) := by simp
  have h9 : "\"\x7d".toList = ['"', '}'] := by simp
  have htext : FileRecord.text tid t (.mmap r) = objectText [("TID".toList, signed tid), ("OP".toList, quoted r.op.toList),
      ("PATH".toList, quoted r.path), ("TS".toList, stamp t), ("ADDR".toList, decimal r.addr),
      ("SIZE".toList, decimal r.size), ("OFF".toList, signed r.off), ("PROT".toList, quoted r.prot.toList)] := by
    unfold FileRecord.text mmapText
    simp only [h1, h2, h3, h4, h5, h6, h7, h8, h9]
    simp only [objectText, membersText, quoted, List.append_assoc, List.cons_append, List.nil_append]
  have hkeys : ∀ k ∈ ["TID", "OP", "PATH", "TS", "ADDR", "SIZE", "OFF", "PROT"], Clean k.toList := by decide
  simp only [List.forall_mem_cons, List.not_mem_nil, false_implies, implies_true, and_true] at hkeys
  obtain ⟨k1, k2, k3, k4, k5, k6, k7, k8⟩ := hkeys
  rw [htext, FileRecord.members]
  have htid := PrintsMember.num k1 (isNumber_signed tid)
  have haddr := PrintsMember.num k5 (isNumber_decimal r.addr)
  have hsize := PrintsMember.num k6 (isNumber_decimal r.size)
  exact Prints.object (.cons htid (.cons (PrintsMember.str k2 hop) (.cons (PrintsMember.str k3 hpath)
    (.cons (PrintsMember.num k4 (isNumber_stamp t)) (.cons haddr (.cons hsize
      (.cons (PrintsMember.num k7 (isNumber_signed r.off)) (.cons (PrintsMember.str k8 hprot) .nil))))))))

section Record

variable {r : FileRecord} (hr : r.Passed) (hpaths : r.Readable) (tid : Int) (t : Timeval)
include hr hpaths

/-- **A record with paths that need no escape prints its members.** -/
theorem FileRecord.Passed.prints : Prints (r.text tid t) (.obj (r.members tid t)) := by
  have hkeys : ∀ k ∈ ["OP", "MODE", "PATH", "OLD", "NEW"], Clean k.toList := by decide
  simp only [List.forall_mem_cons, List.not_mem_nil, false_implies, implies_true, and_true] at hkeys
  obtain ⟨kop, kmode, kpath, kold, knew⟩ := hkeys
  have hops : ∀ op ∈ createOps ++ unlinkOps ++ renameOps ++ mmapOps, Clean op.toList := by decide
  cases r with
  | create r =>
    have hop := hops r.op (by simp [show r.op ∈ createOps from hr])
    have hpath := List.forall_mem_singleton.mp hpaths
    apply prints_recordText
    simp only [List.forall_mem_cons, List.not_mem_nil, false_implies, implies_true, and_true]
    exact ⟨⟨kop, hop⟩, kpath, hpath⟩
  | unlink r =>
    obtain ⟨hmem, flags, hmode⟩ := hr
    have hop := hops r.op (by simp [hmem])
    have hpath := List.forall_mem_singleton.mp hpaths
    apply prints_recordText
    simp only [List.forall_mem_cons, List.not_mem_nil, false_implies, implies_true, and_true, hmode]
    exact ⟨⟨kop, hop⟩, ⟨kmode, clean_mode flags⟩, kpath, hpath⟩
  | rename r =>
    obtain ⟨hmem, flags, hmode⟩ := hr
    have hop := hops r.op (by simp [hmem])
    obtain ⟨hold, hnew⟩ := List.forall_mem_cons.mp hpaths
    apply prints_recordText
    simp only [List.forall_mem_cons, List.not_mem_nil, false_implies, implies_true, and_true, hmode]
    exact ⟨⟨kop, hop⟩, ⟨kmode, clean_mode flags⟩, ⟨kold, hold⟩, knew, List.forall_mem_singleton.mp hnew⟩
  | mmap r =>
    obtain ⟨hmem, prot, flags, hprot⟩ := hr
    apply prints_mmapText tid t (hops r.op (by simp [hmem])) (List.forall_mem_singleton.mp hpaths)
    rw [hprot]
    exact clean_protStr prot flags

end Record

/-- **The reader gets a record back.** -/
theorem FileRecord.Passed.read_back {r : FileRecord} (hr : r.Passed) (tid : Int) (t : Timeval) :
    readFileRecord (.obj (r.members tid t)) = some r := by
  have hunlink : ∀ op ∈ unlinkOps, op ∉ createOps := by decide
  have hrename : ∀ op ∈ renameOps, op ∉ createOps ∧ op ∉ unlinkOps := by decide
  have hmmap : ∀ op ∈ mmapOps, op ∉ createOps ∧ op ∉ unlinkOps ∧ op ∉ renameOps := by decide
  cases r with
  | create r =>
    have hop : r.op ∈ createOps := hr
    simp [readFileRecord, FileRecord.members, recordMembers, stringAt, valuesAt, hop]
  | unlink r =>
    have h1 := hunlink r.op hr.1
    simp [readFileRecord, FileRecord.members, recordMembers, stringAt, valuesAt, hr.1, h1]
  | rename r =>
    obtain ⟨h1, h2⟩ := hrename r.op hr.1
    simp [readFileRecord, FileRecord.members, recordMembers, stringAt, valuesAt, hr.1, h1, h2]
  | mmap r =>
    obtain ⟨h1, h2, h3⟩ := hmmap r.op hr.1
    simp [readFileRecord, FileRecord.members, stringAt, numberAt, valuesAt, hr.1, h1, h2, h3, readSigned_signed]

/-! ## The records of the wrappers -/

section Wrappers

variable {k : OpenKernel W} {l : Libc W} {op : String} {w : W}

theorem passed_create {recs : List CreateRecord} (hop : op ∈ createOps) (hrecs : ∀ r ∈ recs, r.op = op) :
    ∀ r ∈ recs.map FileRecord.create, r.Passed := by
  intro r hr
  obtain ⟨x, hx, rfl⟩ := List.mem_map.mp hr
  rw [FileRecord.Passed, hrecs x hx]
  exact hop

theorem passed_openat (hop : op ∈ createOps) (c : OpenCall) :
    ∀ r ∈ (records (openatOp k true (some l.openat) op c w).acts).map FileRecord.create, r.Passed := by
  obtain ⟨recs, heq, hrecs⟩ := openatOp_eq k true l.openat op c w
  rw [heq, callThrough, records_call, records_map_record]
  exact passed_create hop hrecs

theorem passed_unlinkat (hop : op ∈ unlinkOps) (n : Name) (flags : Int) :
    ∀ r ∈ (records (unlinkatOp k.toKernel true (some l.unlinkat) op n.fd n.path flags w).acts).map FileRecord.unlink,
      r.Passed := by
  intro r hr
  rw [records_unlinkat] at hr
  obtain ⟨x, hx, rfl⟩ := List.mem_map.mp hr
  obtain ⟨q, -, rfl⟩ := Option.map_eq_some_iff.mp (Option.mem_toList.mp hx)
  exact ⟨hop, _, rfl⟩

theorem passed_renameat (hop : op ∈ renameOps) (n m : Name) :
    ∀ r ∈ (records (renameatOp k.toKernel true (some l.renameat) op ⟨n.fd, n.path, m.fd, m.path⟩ w).acts).map
      FileRecord.rename, r.Passed := by
  intro r hr
  rw [records_renameat] at hr
  obtain ⟨x, hx, rfl⟩ := List.mem_map.mp hr
  obtain ⟨q, -, rfl⟩ := Option.map_eq_some_iff.mp (Option.mem_toList.mp hx)
  exact ⟨hop, _, rfl⟩

theorem passed_mmap (hop : op ∈ mmapOps) (c : MmapCall) :
    ∀ r ∈ (records (mmapOp k.toKernel true (some l.mmap64) op c w).acts).map FileRecord.mmap, r.Passed := by
  intro r hr
  rw [mmapOp_eq, callThrough, records_call, records_map_record] at hr
  obtain ⟨x, hx, rfl⟩ := List.mem_map.mp hr
  have hx := Option.mem_toList.mp hx
  rw [mmapRecord] at hx
  split_ifs at hx
  obtain ⟨path, -, rfl⟩ := Option.map_eq_some_iff.mp hx
  exact ⟨hop, _, _, rfl⟩

end Wrappers

/-- **The wrappers make records of their own operations.** -/
theorem LibCall.passed (k : OpenKernel W) (l : Libc W) (call : LibCall) (w : W) :
    ∀ r ∈ records (call.run k true l w).acts, r.Passed := by
  simp only [LibCall.run]
  cases call with
  | creat path mode =>
    simp only [Outcome.map, records_map]
    exact passed_openat (by decide) _
  | «open» path flags mode =>
    simp only [Outcome.map, records_map]
    exact passed_openat (by decide) _
  | openat fd path flags mode =>
    simp only [Outcome.map, records_map]
    exact passed_openat (by decide) _
  | fopen path flags =>
    obtain ⟨recs, heq, hrecs⟩ := fopen_through k true l.fopen path flags w
    simp only [Outcome.map, records_map, heq, callThrough, records_call, records_map_record]
    exact passed_create (by decide) hrecs
  | unlink path =>
    simp only [Outcome.map, records_map]
    exact passed_unlinkat (by decide) ⟨atFdcwd, path⟩ 0
  | unlinkat fd path flags =>
    simp only [Outcome.map, records_map]
    exact passed_unlinkat (by decide) ⟨fd, path⟩ flags
  | rename old new =>
    simp only [Outcome.map, records_map]
    exact passed_renameat (by decide) ⟨atFdcwd, old⟩ ⟨atFdcwd, new⟩
  | renameat c =>
    simp only [Outcome.map, records_map]
    exact passed_renameat (by decide) ⟨c.fromfd, c.from⟩ ⟨c.tofd, c.to⟩
  | mmap64 c =>
    simp only [Outcome.map, records_map]
    exact passed_mmap (by decide) c
  | mmap c =>
    simp only [Outcome.map, records_map]
    exact passed_mmap (by decide) c

/-- So do those of a run. -/
theorem Disk.passed_recorded (d : Disk W) {calls : List LibCall} : ∀ {w : W}, ∀ r ∈ d.recorded w calls, r.Passed := by
  induction calls with
  | nil => exact fun r hr => absurd hr List.not_mem_nil
  | cons call calls ih =>
    intro w r hr
    rcases List.mem_append.mp hr with hr | hr
    · exact call.passed d.kernel d.libc w r hr
    · exact ih r hr

end Cosmost.Fs
