import Cosmost.Fs.Naming
import Cosmost.Fs.Program
import Cosmost.Lib.Subtree

/-!
# The files that the records tell

Whoever reads the records of a process can keep the set of its files in scope: a file that is created is added, one that is
removed is taken away, and a rename moves the file, or all files under a directory. `Disk` is what the calls do to the set
of the regular files; `FileRecord.replay` is the reader.

`Disk.Followed` says when a call can be followed: the wrappers write the path that the kernel resolves the name to, or both
are out of scope; an `fopen` that creates a file asks with `w+` or `a+`; and a rename does not lead into the scope. Over a
run of such calls the reader has the files in scope after each of them (`Disk.replay_recorded`).
-/

namespace Cosmost.Fs

open Cosmost.Lib

variable {W : Type*}

/-! ## The reader -/

/-- The paths in scope. -/
def filesInScope (F : Finset (List Char)) : Finset (List Char) := F.filter fun p => skipPath p = false

/-- What a record says of the files. -/
def FileRecord.change (F : Finset (List Char)) : FileRecord → Finset (List Char)
  | .create r => insert r.path F
  | .unlink r => F.erase r.path
  | .rename r => moved '/' r.old r.new F
  | .mmap _ => F

/-- The reader keeps the paths in scope. -/
def FileRecord.replay (F : Finset (List Char)) (r : FileRecord) : Finset (List Char) := filesInScope (r.change F)

/-- Neither the path nor one beneath it is in scope. -/
def Outside (p : List Char) : Prop := ∀ q, Under '/' p q → skipPath q = true

@[simp] theorem mem_filesInScope {F : Finset (List Char)} {p : List Char} : p ∈ filesInScope F ↔ p ∈ F ∧ skipPath p = false :=
  Finset.mem_filter

/-- What is not in scope is not missed. -/
theorem filesInScope_erase {F : Finset (List Char)} {e : List Char} (h : e ∉ filesInScope F) :
    filesInScope (F.erase e) = filesInScope F := by
  ext p
  simp only [mem_filesInScope, Finset.mem_erase] at h ⊢
  constructor
  · exact fun hp => ⟨hp.1.2, hp.2⟩
  · intro hp
    refine ⟨⟨?_, hp.1⟩, hp.2⟩
    rintro rfl
    exact h hp

/-- What is beneath a path in scope is in scope. -/
theorem under_inScope {p q : List Char} (hp : skipPath p = false) (hq : Under '/' p q) : skipPath q = false := by
  obtain ⟨r, hr, rfl⟩ := under_iff.mp hq
  obtain ⟨⟨d, hd, s, rfl⟩, -⟩ := (skipPath_eq_false_iff p).mp hp
  have hshape : ∀ s', '/' :: (d ++ ['/']) ++ s' = '/' :: (d ++ '/' :: s') := by simp
  rw [hshape, skipPath_named (isName_scopeDir hd)] at hp
  rw [List.append_assoc, hshape, skipPath_named (isName_scopeDir hd)]
  refine ⟨hd, fun e he ⟨hmnt, hpre⟩ => hp.2 e he ⟨hmnt, ?_⟩⟩
  -- an excluded name that begins what is behind `/mnt` ends before the next slash
  rcases Nat.le_total e.length s.length with hlen | hlen
  · exact List.prefix_of_prefix_length_le hpre (List.prefix_append s r) hlen
  · obtain ⟨e', rfl⟩ := List.prefix_of_prefix_length_le (List.prefix_append s r) hpre hlen
    have he' : e' <+: r := (List.prefix_append_right_inj s).mp hpre
    cases e' with
    | nil => simp
    | cons c e' =>
      obtain ⟨t, rfl⟩ := he'
      have hc : c = '/' := hr c (by simp)
      exact absurd (hc ▸ List.mem_append_right s List.mem_cons_self) (isName_excluded he).no_slash

/-! ## What the calls do to the files -/

/-- The regular files of a world by their paths, and how names stand for paths: the file that an open of the name opens or
makes, and the entry that a removal or a rename of the name acts on. -/
structure Disk (W : Type*) where
  kernel : OpenKernel W
  libc : Libc W
  files : W → Finset (List Char)
  file : W → Name → List Char
  entry : W → Name → List Char

/-- The files after a call that makes the file `p`, or does not. -/
def Disk.Makes (d : Disk W) (w : W) (p : List Char) (r : Int × W) : Prop :=
  d.files r.2 = if Created d.kernel p w r then insert p (d.files w) else d.files w

/-- What the calls do, by their manuals, where no file has two links. -/
structure Disk.Documented (d : Disk W) : Prop where
  openat : ∀ c w, Opens d.kernel c.flags (d.file w ⟨c.fd, c.path⟩) w (d.libc.openat c w)
  openat_files : ∀ c w, d.Makes w (d.file w ⟨c.fd, c.path⟩) (d.libc.openat c w)
  fopen : ∀ c w flags, fopenFlags c.flags = some flags →
    Opens d.kernel flags (d.file w ⟨atFdcwd, c.path⟩) w (d.libc.fopen c w)
  fopen_mode : ∀ c w, fopenFlags c.flags = none → (d.libc.fopen c w).1 = -1
  fopen_files : ∀ c w, d.Makes w (d.file w ⟨atFdcwd, c.path⟩) (d.libc.fopen c w)
  unlinkat_files : ∀ c w, d.files (d.libc.unlinkat c w).2 =
    if (d.libc.unlinkat c w).1 = 0 then (d.files w).erase (d.entry w ⟨c.fd, c.path⟩) else d.files w
  renameat_files : ∀ c w, d.files (d.libc.renameat c w).2 =
    if (d.libc.renameat c w).1 = 0 then
      moved '/' (d.entry w ⟨c.fromfd, c.from⟩) (d.entry w ⟨c.tofd, c.to⟩) (d.files w)
    else d.files w
  mmap_files : ∀ c w, d.files (d.libc.mmap64 c w).2 = d.files w
  regular : ∀ w, ∀ p ∈ d.files w, ∃ st, d.kernel.lstat w p = .mode st ∧ st &&& sIFMT = sIFREG

/-- The files in scope. -/
def Disk.inScope (d : Disk W) (w : W) : Finset (List Char) := filesInScope (d.files w)

/-- The world after a call of the program, with notifications on. -/
def Disk.next (d : Disk W) : W → LibCall → W := d.libc.next d.kernel true

/-- The records of a call. -/
def Disk.records (d : Disk W) (w : W) (call : LibCall) : List FileRecord :=
  Lib.records (call.run d.kernel true d.libc w).acts

/-- The records of a run. -/
def Disk.recorded (d : Disk W) : W → List LibCall → List FileRecord
  | _, [] => []
  | w, call :: calls => d.records w call ++ d.recorded (d.next w call) calls

/-! ## Which calls can be followed -/

/-- The wrappers write the path for the name, or it and what they write are out of scope. -/
def Disk.Written (d : Disk W) (w : W) (n : Name) (p : List Char) : Prop :=
  d.kernel.written w n = some p ∨ skipPath p = true ∧ ∀ q, d.kernel.written w n = some q → skipPath q = true

/-- An open that succeeds and may have made a file. -/
def Disk.OpenFollowed (d : Disk W) (w : W) (c : OpenCall) : Prop :=
  (d.libc.openat c w).1 ≠ -1 → c.flags &&& oCREAT ≠ 0 → d.Written w ⟨c.fd, c.path⟩ (d.file w ⟨c.fd, c.path⟩)

/-- The wrapper of `unlinkat` asks for the path without its descriptor. -/
def Disk.UnlinkFollowed (d : Disk W) (w : W) (n : Name) (flags : Int) : Prop :=
  (d.libc.unlinkat ⟨atFdcwd, n.path, flags⟩ w).1 = 0 → d.Written w n (d.entry w ⟨atFdcwd, n.path⟩)

/-- The source of a rename is written and passes the scope check, and the target is written or out of scope with what is
written; or nothing of it is in scope. -/
def Disk.RenameFollowed (d : Disk W) (w : W) (c : RenameCall) : Prop :=
  let r := d.libc.renameat c w
  let old := d.entry w ⟨c.fromfd, c.from⟩
  let new := d.entry w ⟨c.tofd, c.to⟩
  let q := d.kernel.writtenTo r.2 c.fromfd ⟨c.tofd, c.to⟩
  r.1 = 0 →
    (d.kernel.written w ⟨c.fromfd, c.from⟩ = some old ∧ d.kernel.scope w old ≠ 0 ∧ (q = new ∨ Outside q ∧ Outside new)) ∨
    ((∀ q, d.kernel.written w ⟨c.fromfd, c.from⟩ = some q → skipPath q = true) ∧ Outside old ∧ Outside new)

/-- The call can be followed. -/
def Disk.Followed (d : Disk W) (w : W) : LibCall → Prop
  | .creat path mode => d.OpenFollowed w ⟨atFdcwd, path, oCREAT ||| oTRUNC ||| oWRONLY, mode⟩
  | .open path flags mode => d.OpenFollowed w ⟨atFdcwd, path, flags, openMode flags mode⟩
  | .openat fd path flags mode => d.OpenFollowed w ⟨fd, path, flags, openMode flags mode⟩
  | .fopen path flags =>
    let p := d.file w ⟨atFdcwd, path⟩
    (d.libc.fopen ⟨path, flags⟩ w).1 ≠ -1 → d.Written w ⟨atFdcwd, path⟩ p ∧
      (d.kernel.access w p = some eNOENT → skipPath p = false → asksNew flags = true)
  | .unlink path => d.UnlinkFollowed w ⟨atFdcwd, path⟩ 0
  | .unlinkat fd path flags => d.UnlinkFollowed w ⟨fd, path⟩ flags
  | .rename old new => d.RenameFollowed w ⟨atFdcwd, old, atFdcwd, new⟩
  | .renameat c => d.RenameFollowed w c
  | .mmap64 _ | .mmap _ => True

/-! ## One call -/

section Step

variable {d : Disk W} {w : W} {p : List Char} {r : Int × W}

/-- A scope check that something passes. -/
theorem skipPath_of_scope {k : Kernel W} (h : k.scope w p ≠ 0) : skipPath p = false := by
  by_contra hskip
  rw [Bool.not_eq_false] at hskip
  exact h (by rw [Kernel.scope, notify, if_pos hskip])

theorem skipPath_of_opened {k : Kernel W} {fd : Int} (h : k.opened w fd p ≠ 0) : skipPath p = false := by
  by_contra hskip
  rw [Bool.not_eq_false] at hskip
  exact h (by rw [Kernel.opened, notify, if_pos hskip])

/-- Nothing is seen of a name for which only paths out of scope are written. -/
theorem seen_passed {k : Kernel W} {n : Name} {due : List Char → Prop} [DecidablePred due]
    (hout : ∀ q, k.written w n = some q → skipPath q = true) (hdue : ∀ q, due q → skipPath q = false) :
    seen (k.written w n) due = none := by
  refine seen_eq_none_iff.mpr fun q hq h => ?_
  have hskip := hdue q h
  rw [hout q hq] at hskip
  cases hskip

/-- A regular file in scope passes. -/
theorem Disk.Documented.scope_ne_zero (hd : d.Documented) (hp : p ∈ d.inScope w) : d.kernel.scope w p ≠ 0 := by
  obtain ⟨hfile, hskip⟩ := mem_filesInScope.mp hp
  obtain ⟨st, hst, hreg⟩ := hd.regular w p hfile
  have hcheck : notify (-1) (sIFREG ||| sIFDIR) p (d.kernel.fstat w (-1)) (.mode st) = sIFREG := by
    rw [notify, hskip, if_neg (by decide : ¬ (false = true)), if_neg (by decide : ¬ ((0 : Int) < -1))]
    simp only [hreg]
    decide
  rw [Kernel.scope, hst, hcheck]
  decide

/-! ### Files that are made -/

/-- What a record of the file that is made does for the reader. -/
theorem replay_create (op : String) (hfiles : d.Makes w p r) :
    (if Created d.kernel p w r ∧ skipPath p = false then [FileRecord.create ⟨op, p⟩] else []).foldl FileRecord.replay
      (d.inScope w) = d.inScope r.2 := by
  rw [Disk.inScope, Disk.inScope, hfiles]
  by_cases hc : Created d.kernel p w r
  · cases hskip : skipPath p with
    | false =>
      ext q
      simp only [hc, and_self, ↓reduceIte, List.foldl_cons, List.foldl_nil, FileRecord.replay, FileRecord.change,
        mem_filesInScope, Finset.mem_insert]
      constructor
      · rintro ⟨rfl | ⟨hq, -⟩, hs⟩
        · exact ⟨Or.inl rfl, hs⟩
        · exact ⟨Or.inr hq, hs⟩
      · rintro ⟨rfl | hq, hs⟩
        · exact ⟨Or.inl rfl, hs⟩
        · exact ⟨Or.inr ⟨hq, hs⟩, hs⟩
    | true =>
      ext q
      simp only [hc, Bool.true_eq_false, and_false, ↓reduceIte, List.foldl_nil, mem_filesInScope, Finset.mem_insert]
      constructor
      · exact fun h => ⟨Or.inr h.1, h.2⟩
      · rintro ⟨rfl | hq, hs⟩
        · rw [hskip] at hs
          cases hs
        · exact ⟨hq, hs⟩
  · simp [hc]

/-- `__OPENAT` records the file that is made, if it is in scope. -/
theorem records_written {flags : Nat} (ho : Opens d.kernel flags p w r) (op : String) {n : Name}
    (hw : r.1 ≠ -1 → d.Written w n p) :
    ((seen (d.kernel.written w n) (CreateDue d.kernel w r)).map (notifyCreate op)).toList =
      if Created d.kernel p w r ∧ skipPath p = false then [⟨op, p⟩] else [] := by
  by_cases hret : r.1 = -1
  · have hnone : seen (d.kernel.written w n) (CreateDue d.kernel w r) = none :=
      seen_eq_none_iff.mpr fun q _ hdue => hdue.1 hret
    rw [hnone, if_neg fun h => h.1.1 hret]
    rfl
  rcases hw hret with hsome | ⟨hskip, hout⟩
  · rw [hsome, toList_seen]
    apply if_congr _ rfl rfl
    constructor
    · rintro ⟨-, hnew, hopened⟩
      exact ⟨ho.created_iff.mpr ⟨hret, hnew⟩, skipPath_of_opened hopened⟩
    · rintro ⟨hc, hs⟩
      exact ⟨hret, (ho.created_iff.mp hc).2, (ho.opened_iff hc).mpr hs⟩
  · rw [seen_passed hout fun q hdue => skipPath_of_opened hdue.2.2, if_neg fun h => by rw [hskip] at h; cases h.2]
    rfl

theorem Disk.Documented.replay_openat (hd : d.Documented) (op : String) {c : OpenCall} (h : d.OpenFollowed w c) :
    ((Lib.records (openatOp d.kernel true (some d.libc.openat) op c w).acts).map FileRecord.create).foldl
      FileRecord.replay (d.inScope w) = d.inScope (d.libc.openat c w).2 := by
  have ho := hd.openat c w
  have hstep := replay_create op (hd.openat_files c w)
  by_cases hflags : c.flags &&& oCREAT = 0
  · have hc : ¬ Created d.kernel (d.file w ⟨c.fd, c.path⟩) w (d.libc.openat c w) := fun hc =>
      ho.asked_of_created hc hflags
    rw [if_neg fun h => hc h.1] at hstep
    simpa [openatOp, hflags] using hstep
  · have hrec := records_openat d.kernel d.libc.openat op ⟨c.fd, c.path⟩ hflags c.mode w
    rw [records_written ho op fun hret => h hret hflags] at hrec
    rw [hrec, ← hstep]
    split_ifs <;> rfl

/-- What the wrapper of `fopen` records. -/
theorem records_fopen (k : OpenKernel W) (g : Fopen W) (path flags : List Char) (w : W) :
    Lib.records (fopen k true (some g) path flags w).acts =
      if asksNew flags = true ∧ CreateDue k w (g ⟨path, flags⟩ w) path then [⟨"fopen (create)", path⟩] else [] := by
  simp only [fopen, records_call, records_ite, notifyCreate]
  apply if_congr _ rfl rfl
  simp only [CreateDue, asksNew, Bool.not_eq_true', Bool.not_eq_false, Bool.and_eq_true, decide_eq_true_eq, true_and]
  tauto

theorem Disk.Documented.replay_fopen (hd : d.Documented) {path flags : List Char}
    (h : d.Followed w (.fopen path flags)) :
    ((Lib.records (Fs.fopen d.kernel true (some d.libc.fopen) path flags w).acts).map FileRecord.create).foldl
      FileRecord.replay (d.inScope w) = d.inScope (d.libc.fopen ⟨path, flags⟩ w).2 := by
  have hstep := replay_create "fopen (create)" (hd.fopen_files ⟨path, flags⟩ w)
  rw [records_fopen, ← hstep]
  by_cases hret : (d.libc.fopen ⟨path, flags⟩ w).1 = -1
  · rw [if_neg fun hdue => hdue.2.1 hret, if_neg fun hc => hc.1.1 hret]
    rfl
  obtain ⟨hwritten, hasks⟩ := h hret
  -- the mode is one that means flags, since the call succeeds
  obtain ⟨fl, hfl⟩ : ∃ fl, fopenFlags flags = some fl :=
    Option.ne_none_iff_exists'.mp fun hnone => hret (hd.fopen_mode ⟨path, flags⟩ w hnone)
  have ho := hd.fopen ⟨path, flags⟩ w fl hfl
  have hrec := records_written ho "fopen (create)" fun _ => hwritten
  rw [Kernel.written_cwd, toList_seen] at hrec
  have hdue : (if asksNew flags = true ∧ CreateDue d.kernel w (d.libc.fopen ⟨path, flags⟩ w) path then
      [(⟨"fopen (create)", path⟩ : CreateRecord)] else []) =
      if CreateDue d.kernel w (d.libc.fopen ⟨path, flags⟩ w) path then [⟨"fopen (create)", path⟩] else [] := by
    apply if_congr _ rfl rfl
    refine ⟨And.right, fun hdue => ⟨?_, hdue⟩⟩
    have hskip := skipPath_of_opened hdue.2.2
    rcases hwritten with hsame | ⟨-, hout⟩
    · rw [Kernel.written_cwd, Option.some.injEq] at hsame
      rw [← hsame] at hasks
      exact hasks hdue.2.1 hskip
    · rw [hout path rfl] at hskip
      cases hskip
  have hrec' : (if CreateDue d.kernel w (d.libc.fopen ⟨path, flags⟩ w) path then
      [(⟨"fopen (create)", path⟩ : CreateRecord)] else []) = _ := hrec
  rw [hdue, hrec']
  split_ifs <;> rfl

/-! ### Files that are removed -/

theorem Disk.Documented.replay_unlinkat (hd : d.Documented) (op : String) {n : Name} {flags : Int}
    (h : d.UnlinkFollowed w n flags) :
    ((Lib.records (unlinkatOp d.kernel.toKernel true (some d.libc.unlinkat) op n.fd n.path flags w).acts).map
      FileRecord.unlink).foldl FileRecord.replay (d.inScope w) =
    d.inScope (d.libc.unlinkat ⟨atFdcwd, n.path, flags⟩ w).2 := by
  have hfiles := hd.unlinkat_files ⟨atFdcwd, n.path, flags⟩ w
  rw [records_unlinkat]
  set r := d.libc.unlinkat ⟨atFdcwd, n.path, flags⟩ w
  set e := d.entry w ⟨atFdcwd, n.path⟩
  by_cases hret : r.1 = 0
  · rw [if_pos hret] at hfiles
    rcases h hret with hsome | ⟨hskip, hout⟩
    · rw [hsome, toList_seen]
      by_cases hscope : d.kernel.scope w e = 0
      · -- a file that fails the scope check is none of those in scope
        have hnot : e ∉ d.inScope w := fun he => hd.scope_ne_zero he hscope
        have hdue : ¬ MoveDue d.kernel.toKernel w r e := fun hdue => hdue.2 hscope
        rw [if_neg hdue, Disk.inScope, Disk.inScope, hfiles, filesInScope_erase hnot]
        rfl
      · have hdue : MoveDue d.kernel.toKernel w r e := ⟨hret, hscope⟩
        rw [if_pos hdue, Disk.inScope, Disk.inScope, hfiles]
        ext p
        simp only [notifyUnlink, List.map_cons, List.map_nil, List.foldl_cons, List.foldl_nil, FileRecord.replay,
          FileRecord.change, mem_filesInScope, Finset.mem_erase]
        tauto
    · have hnot : e ∉ d.inScope w := fun he => by
        rw [(mem_filesInScope.mp he).2] at hskip
        cases hskip
      rw [seen_passed hout fun q hdue => skipPath_of_scope hdue.2, Disk.inScope, Disk.inScope, hfiles,
        filesInScope_erase hnot]
      rfl
  · have hnone : seen (d.kernel.written w n) (MoveDue d.kernel.toKernel w r) = none :=
      seen_eq_none_iff.mpr fun q _ hdue => hret hdue.1
    rw [hnone, Disk.inScope, Disk.inScope, hfiles, if_neg hret]
    rfl

/-! ### Files that are moved -/

/-- A move that is recorded, from a path in scope. -/
theorem replay_rename {op mode : String} {old new q : List Char} {F : Finset (List Char)} (hold : skipPath old = false)
    (hnew : q = new ∨ Outside q ∧ Outside new) :
    FileRecord.replay (filesInScope F) (.rename ⟨op, mode, old, q⟩) = filesInScope (moved '/' old new F) := by
  have hin : ∀ p, Under '/' old p → skipPath p = false := fun p => under_inScope hold
  have hseen : (moved '/' old q F).filter (fun p => skipPath p = false) =
      (moved '/' old q (F.filter fun p => skipPath p = false)).filter fun p => skipPath p = false := filter_moved hin
  simp only [FileRecord.replay, FileRecord.change, filesInScope]
  rw [← hseen]
  rcases hnew with rfl | ⟨hq, hn⟩
  · rfl
  · rw [filter_moved_away fun p hp => by rw [hq p hp]; decide, filter_moved_away fun p hp => by rw [hn p hp]; decide]

theorem Disk.Documented.replay_renameat (hd : d.Documented) (op : String) {c : RenameCall} (h : d.RenameFollowed w c) :
    ((Lib.records (renameatOp d.kernel.toKernel true (some d.libc.renameat) op c w).acts).map FileRecord.rename).foldl
      FileRecord.replay (d.inScope w) = d.inScope (d.libc.renameat c w).2 := by
  have hfiles := hd.renameat_files c w
  have hrec := records_renameat d.kernel.toKernel d.libc.renameat op ⟨c.fromfd, c.from⟩ ⟨c.tofd, c.to⟩ w
  rw [hrec]
  set r := d.libc.renameat c w
  by_cases hret : r.1 = 0
  · rw [if_pos hret] at hfiles
    rcases h hret with ⟨hsome, hscope, hto⟩ | ⟨hout, hold, hnew⟩
    · have hdue : MoveDue d.kernel.toKernel w r (d.entry w ⟨c.fromfd, c.from⟩) := ⟨hret, hscope⟩
      rw [hsome, toList_seen, if_pos hdue, Disk.inScope, Disk.inScope, hfiles]
      exact replay_rename (skipPath_of_scope hscope) hto
    · rw [seen_passed hout fun q hdue => skipPath_of_scope hdue.2, Disk.inScope, Disk.inScope, hfiles, filesInScope,
        filesInScope, filter_moved_outside (fun p hp => by rw [hold p hp]; decide) fun p hp => by rw [hnew p hp]; decide]
      rfl
  · have hnone : seen (d.kernel.written w ⟨c.fromfd, c.from⟩) (MoveDue d.kernel.toKernel w r) = none :=
      seen_eq_none_iff.mpr fun q _ hdue => hret hdue.1
    rw [hnone, Disk.inScope, Disk.inScope, hfiles, if_neg hret]
    rfl

/-! ### Any call -/

theorem Disk.world_openat (d : Disk W) (op : String) (c : OpenCall) (w : W) :
    (openatOp d.kernel true (some d.libc.openat) op c w).world = (d.libc.openat c w).2 := by
  obtain ⟨recs, heq, -⟩ := openatOp_eq d.kernel true d.libc.openat op c w
  rw [heq]
  rfl

theorem Disk.world_unlinkat (d : Disk W) (op : String) (fd : Int) (path : List Char) (flags : Int) (w : W) :
    (unlinkatOp d.kernel.toKernel true (some d.libc.unlinkat) op fd path flags w).world =
      (d.libc.unlinkat ⟨atFdcwd, path, flags⟩ w).2 := by
  obtain ⟨recs, heq, -⟩ := unlinkatOp_eq d.kernel.toKernel true d.libc.unlinkat op fd path flags w
  rw [heq]
  rfl

theorem Disk.world_renameat (d : Disk W) (op : String) (c : RenameCall) (w : W) :
    (renameatOp d.kernel.toKernel true (some d.libc.renameat) op c w).world = (d.libc.renameat c w).2 := by
  obtain ⟨r, heq⟩ := renameatOp_eq d.kernel.toKernel true d.libc.renameat op c w
  rw [heq]

/-- A mapping changes no file, and its record says so. -/
theorem Disk.Documented.replay_mmap (hd : d.Documented) (op : String) (c : MmapCall) :
    ((Lib.records (mmapOp d.kernel.toKernel true (some d.libc.mmap64) op c w).acts).map FileRecord.mmap).foldl
      FileRecord.replay (d.inScope w) =
    d.inScope (mmapOp d.kernel.toKernel true (some d.libc.mmap64) op c w).world := by
  rw [mmapOp_eq]
  have hfiles : d.inScope (d.libc.mmap64 c w).2 = d.inScope w := by
    rw [Disk.inScope, hd.mmap_files]
    rfl
  simp only [callThrough, records_call, records_map_record, hfiles]
  cases mmapRecord d.kernel.toKernel true op c (d.libc.mmap64 c w) with
  | none => rfl
  | some r =>
    simp only [Option.toList_some, List.map_cons, List.map_nil, List.foldl_cons, List.foldl_nil, FileRecord.replay,
      FileRecord.change]
    ext p
    simp [Disk.inScope]

/-- **A call that can be followed**: the reader of its records has the files in scope after it. -/
theorem Disk.Documented.replay_call (hd : d.Documented) {call : LibCall} (h : d.Followed w call) :
    (d.records w call).foldl FileRecord.replay (d.inScope w) = d.inScope (d.next w call) := by
  simp only [Disk.records, Disk.next, Libc.next, LibCall.run]
  cases call with
  | creat path mode =>
    simp only [Outcome.map, records_map, Fs.creat, d.world_openat]
    exact hd.replay_openat _ h
  | «open» path flags mode =>
    simp only [Outcome.map, records_map, Fs.«open», d.world_openat]
    exact hd.replay_openat _ h
  | openat fd path flags mode =>
    simp only [Outcome.map, records_map, Fs.openat, d.world_openat]
    exact hd.replay_openat _ h
  | fopen path flags =>
    obtain ⟨recs, heq, -⟩ := fopen_through d.kernel true d.libc.fopen path flags w
    have hworld : (Fs.fopen d.kernel true (some d.libc.fopen) path flags w).world = (d.libc.fopen ⟨path, flags⟩ w).2 := by
      rw [heq]
      rfl
    simp only [Outcome.map, records_map, hworld]
    exact hd.replay_fopen h
  | unlink path =>
    simp only [Outcome.map, records_map, Fs.unlink, d.world_unlinkat]
    exact hd.replay_unlinkat _ (n := ⟨atFdcwd, path⟩) h
  | unlinkat fd path flags =>
    simp only [Outcome.map, records_map, Fs.unlinkat, d.world_unlinkat]
    exact hd.replay_unlinkat _ (n := ⟨fd, path⟩) h
  | rename old new =>
    simp only [Outcome.map, records_map, Fs.rename, d.world_renameat]
    exact hd.replay_renameat _ h
  | renameat c =>
    simp only [Outcome.map, records_map, Fs.renameat, d.world_renameat]
    exact hd.replay_renameat _ h
  | mmap64 c =>
    simp only [Outcome.map, records_map]
    exact hd.replay_mmap _ c
  | mmap c =>
    simp only [Outcome.map, records_map]
    exact hd.replay_mmap _ c

/-- **A run of calls that can be followed.** -/
theorem Disk.Documented.replay_recorded (hd : d.Documented) {calls : List LibCall} : ∀ {w : W},
    EachStep d.next d.Followed w calls →
      (d.recorded w calls).foldl FileRecord.replay (d.inScope w) = d.inScope (calls.foldl d.next w) := by
  induction calls with
  | nil => exact fun _ => rfl
  | cons call calls ih =>
    intro w h
    obtain ⟨hcall, hcalls⟩ := h
    rw [Disk.recorded, List.foldl_append, hd.replay_call hcall]
    exact ih hcalls

end Step

/-! ## The first records -/

/-- A call leaves one record at most. -/
theorem Disk.records_length_le (d : Disk W) (w : W) (call : LibCall) : (d.records w call).length ≤ 1 := by
  have hite : ∀ {R : Type} (P : Prop) [Decidable P] (r : R), (if P then [r] else []).length ≤ 1 := by
    intro R P _ r
    split_ifs <;> simp
  have hoption : ∀ {R : Type} (o : Option R), o.toList.length ≤ 1 := by
    intro R o
    cases o <;> simp
  have hcreate : ∀ (op : String) (c : OpenCall),
      (Lib.records (openatOp d.kernel true (some d.libc.openat) op c w).acts).length ≤ 1 := by
    intro op c
    by_cases hflags : c.flags &&& oCREAT = 0
    · simp [openatOp, hflags]
    · rw [records_openat d.kernel d.libc.openat op ⟨c.fd, c.path⟩ hflags c.mode w]
      exact hoption _
  have hrename : ∀ (op : String) (c : RenameCall),
      (Lib.records (renameatOp d.kernel.toKernel true (some d.libc.renameat) op c w).acts).length ≤ 1 := by
    intro op c
    rw [records_renameat d.kernel.toKernel d.libc.renameat op ⟨c.fromfd, c.from⟩ ⟨c.tofd, c.to⟩ w]
    exact hoption _
  have hunlink : ∀ (op : String) (n : Name) (flags : Int),
      (Lib.records (unlinkatOp d.kernel.toKernel true (some d.libc.unlinkat) op n.fd n.path flags w).acts).length ≤ 1 := by
    intro op n flags
    rw [records_unlinkat]
    exact hoption _
  have hmmap : ∀ (op : String) (c : MmapCall),
      (Lib.records (mmapOp d.kernel.toKernel true (some d.libc.mmap64) op c w).acts).length ≤ 1 := by
    intro op c
    rw [mmapOp_eq]
    simp only [callThrough, records_call, records_map_record]
    exact hoption _
  simp only [Disk.records, LibCall.run]
  cases call <;> simp only [Outcome.map, records_map, List.length_map]
  case creat path mode => exact hcreate _ _
  case «open» path flags mode => exact hcreate _ _
  case openat fd path flags mode => exact hcreate _ _
  case fopen path flags =>
    rw [records_fopen]
    exact hite _ _
  case unlink path => exact hunlink _ ⟨atFdcwd, path⟩ _
  case unlinkat fd path flags => exact hunlink _ ⟨fd, path⟩ _
  case rename old new => exact hrename _ _
  case renameat c => exact hrename _ _
  case mmap64 c => exact hmmap _ _
  case mmap c => exact hmmap _ _

/-- **The first records of a run are those of its first calls.** -/
theorem Disk.recorded_take (d : Disk W) (calls : List LibCall) : ∀ (w : W) (i : Nat),
    ∃ j, (d.recorded w calls).take i = d.recorded w (calls.take j) := by
  induction calls with
  | nil => exact fun w i => ⟨0, List.take_nil⟩
  | cons call calls ih =>
    intro w i
    have hone := d.records_length_le w call
    cases i with
    | zero => exact ⟨0, List.take_zero⟩
    | succ i =>
      cases hr : d.records w call with
      | nil =>
        obtain ⟨j, hj⟩ := ih (d.next w call) (i + 1)
        refine ⟨j + 1, ?_⟩
        rw [List.take_succ_cons, Disk.recorded, Disk.recorded, hr, List.nil_append, List.nil_append, hj]
      | cons r rs =>
        obtain rfl : rs = [] := by
          rw [hr, List.length_cons] at hone
          exact List.eq_nil_of_length_eq_zero (by omega)
        obtain ⟨j, hj⟩ := ih (d.next w call) i
        refine ⟨j + 1, ?_⟩
        rw [List.take_succ_cons, Disk.recorded, Disk.recorded, hr, List.singleton_append, List.singleton_append,
          List.take_succ_cons, hj]

/-! ## A tree of files -/

/-- Relative paths begin at the root, or under descriptor 5 in `/data/d`. -/
def treePath (n : Name) : List Char :=
  if n.path.head? = some '/' then n.path else (if n.fd = 5 then "/data/d".toList else []) ++ '/' :: n.path

/-- A kernel that knows which files are there, all of them regular. -/
def treeKernel : OpenKernel (Finset (List Char)) :=
  ⟨⟨fun _ fd => if fd = 5 then some "/data/d".toList else none, fun _ _ => .mode 0x81a4, fun _ _ => .mode 0x81a4⟩,
    fun w q => if treePath ⟨atFdcwd, q⟩ ∈ w then none else some eNOENT⟩

/-- Opening a path with flags. -/
def treeOpen (flags : Nat) (p : List Char) (w : Finset (List Char)) : Int × Finset (List Char) :=
  if p ∈ w then (3, w) else if flags &&& oCREAT ≠ 0 then (3, insert p w) else (-1, w)

/-- A C library for the tree. -/
def treeLibc : Libc (Finset (List Char)) where
  openat c w := treeOpen c.flags (treePath ⟨c.fd, c.path⟩) w
  fopen c w :=
    match fopenFlags c.flags with
    | some flags => treeOpen flags (treePath ⟨atFdcwd, c.path⟩) w
    | none => (-1, w)
  unlinkat c w := if treePath ⟨c.fd, c.path⟩ ∈ w then (0, w.erase (treePath ⟨c.fd, c.path⟩)) else (-1, w)
  renameat c w :=
    if ∃ p ∈ w, Under '/' (treePath ⟨c.fromfd, c.from⟩) p then
      (0, moved '/' (treePath ⟨c.fromfd, c.from⟩) (treePath ⟨c.tofd, c.to⟩) w)
    else (-1, w)
  mmap64 _ w := (0x1000, w)

/-- The tree. -/
def tree : Disk (Finset (List Char)) := ⟨treeKernel, treeLibc, id, fun _ => treePath, fun _ => treePath⟩

theorem treePath_treePath (n : Name) (fd : Int) : treePath ⟨fd, treePath n⟩ = treePath n := by
  have habs : (treePath n).head? = some '/' := by
    unfold treePath
    split_ifs with h
    · exact h
    · rfl
    · rfl
  rw [treePath, if_pos habs]

theorem tree_makes (flags : Nat) (n : Name) (w : Finset (List Char)) :
    Opens treeKernel flags (treePath n) w (treeOpen flags (treePath n) w) ∧
      tree.Makes w (treePath n) (treeOpen flags (treePath n) w) := by
  have haccess : ∀ w, treeKernel.access w (treePath n) = if treePath n ∈ w then none else some eNOENT := by
    intro w
    simp only [treeKernel, treePath_treePath]
  have hregular : (0x81a4 : Nat) &&& sIFMT = sIFREG := by decide
  by_cases hin : treePath n ∈ w
  · refine ⟨⟨fun _ => Or.inl ?_, ?_, ?_, ?_, ?_⟩, ?_⟩
    · rw [haccess, if_pos hin]
    all_goals simp [haccess, hin, Disk.Makes, Created, tree, treeOpen]
  · by_cases hflags : flags &&& oCREAT = 0
    · constructor
      · constructor <;> simp [treeOpen, hin, hflags]
      · simp [Disk.Makes, Created, tree, treeOpen, hin, hflags]
    · refine ⟨⟨fun _ => Or.inr ?_, fun _ _ => hflags, fun _ _ => ?_, fun _ _ => ⟨_, rfl, hregular⟩,
        fun _ _ => ⟨_, rfl, Or.inl hregular⟩⟩, ?_⟩
      · rw [haccess, if_neg hin]
      · simp [haccess, treeOpen, hin, hflags]
      · simp [Disk.Makes, Created, tree, haccess, treeOpen, hin, hflags]

theorem tree_documented : tree.Documented where
  openat c w := (tree_makes c.flags ⟨c.fd, c.path⟩ w).1
  openat_files c w := (tree_makes c.flags ⟨c.fd, c.path⟩ w).2
  fopen c w flags hflags := by
    have h := (tree_makes flags ⟨atFdcwd, c.path⟩ w).1
    simpa only [tree, treeLibc, hflags] using h
  fopen_mode c w hflags := by simp only [tree, treeLibc, hflags]
  fopen_files c w := by
    cases hflags : fopenFlags c.flags with
    | none => simp [Disk.Makes, Created, tree, treeLibc, hflags]
    | some flags =>
      have h := (tree_makes flags ⟨atFdcwd, c.path⟩ w).2
      simpa only [tree, treeLibc, hflags] using h
  unlinkat_files c w := by
    simp only [tree, treeLibc, id]
    split_ifs <;> simp_all
  renameat_files c w := by
    simp only [tree, treeLibc, id]
    split_ifs <;> simp_all
  mmap_files _ _ := rfl
  regular _ _ _ := ⟨0x81a4, rfl, by decide⟩

end Cosmost.Fs
