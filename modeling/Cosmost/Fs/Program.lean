import Cosmost.Fs.Create
import Cosmost.Fs.Mmap
import Cosmost.Fs.Rename
import Cosmost.Fs.Unlink

/-!
# Programs of file calls

A program creates, opens, maps, renames and removes files through the wrappers, in one world. Each of its calls asks for an
underlying call; what the wrapper makes of it is `LibCall.run`.

`program_unseen_iff`: every call of a run is made as it was asked for, and returns and leaves what the underlying call does,
exactly if no `unlinkat` with notifications on has a directory descriptor and no lookup of a target overwrites the result of
a `renameat`. Then the program cannot tell the library from the C library.
-/

namespace Cosmost.Fs

open Cosmost.Lib

variable {W : Type*}

/-- The underlying calls. -/
inductive Syscall
  | openat (c : OpenCall)
  | fopen (c : FopenCall)
  | unlinkat (c : UnlinkCall)
  | renameat (c : RenameCall)
  | mmap64 (c : MmapCall)
  deriving DecidableEq, Repr

/-- The calls of a program. -/
inductive LibCall
  | creat (path : List Char) (mode : Nat)
  | «open» (path : List Char) (flags mode : Nat)
  | openat (fd : Int) (path : List Char) (flags mode : Nat)
  | fopen (path flags : List Char)
  | unlink (path : List Char)
  | unlinkat (fd : Int) (path : List Char) (flags : Int)
  | rename (old new : List Char)
  | renameat (c : RenameCall)
  | mmap64 (c : MmapCall)
  | mmap (c : MmapCall)
  deriving DecidableEq, Repr

/-- What the wrappers log. -/
inductive FileRecord
  | create (r : CreateRecord)
  | unlink (r : UnlinkRecord)
  | rename (r : RenameRecord)
  | mmap (r : MmapRecord)
  deriving DecidableEq, Repr

/-- The C library: what `dlsym` finds. -/
structure Libc (W : Type*) where
  openat : Openat W
  fopen : Fopen W
  unlinkat : Unlinkat W
  renameat : Renameat W
  mmap64 : Mmap64 W

/-- An underlying call. -/
def Libc.call (l : Libc W) : Syscall → W → Int × W
  | .openat c => l.openat c
  | .fopen c => l.fopen c
  | .unlinkat c => l.unlinkat c
  | .renameat c => l.renameat c
  | .mmap64 c => l.mmap64 c

/-- The underlying call that a call asks for. -/
def LibCall.asks : LibCall → Syscall
  | .creat path mode => .openat ⟨atFdcwd, path, oCREAT ||| oTRUNC ||| oWRONLY, mode⟩
  | .open path flags mode => .openat ⟨atFdcwd, path, flags, openMode flags mode⟩
  | .openat fd path flags mode => .openat ⟨fd, path, flags, openMode flags mode⟩
  | .fopen path flags => .fopen ⟨path, flags⟩
  | .unlink path => .unlinkat ⟨atFdcwd, path, 0⟩
  | .unlinkat fd path flags => .unlinkat ⟨fd, path, flags⟩
  | .rename old new => .renameat ⟨atFdcwd, old, atFdcwd, new⟩
  | .renameat c => .renameat c
  | .mmap64 c => .mmap64 c
  | .mmap c => .mmap64 c

/-- What the wrapper of a call does. -/
def LibCall.run (k : OpenKernel W) (notifyOn : Bool) (l : Libc W) (call : LibCall) (w : W) :
    Outcome W Syscall FileRecord :=
  match call with
  | .creat path mode => (Fs.creat k notifyOn (some l.openat) path mode w).map .openat .create
  | .open path flags mode => (Fs.«open» k notifyOn (some l.openat) path flags mode w).map .openat .create
  | .openat fd path flags mode => (Fs.openat k notifyOn (some l.openat) fd path flags mode w).map .openat .create
  | .fopen path flags => (Fs.fopen k notifyOn (some l.fopen) path flags w).map .fopen .create
  | .unlink path => (Fs.unlink k.toKernel notifyOn (some l.unlinkat) path w).map .unlinkat .unlink
  | .unlinkat fd path flags =>
    (Fs.unlinkat k.toKernel notifyOn (some l.unlinkat) fd path flags w).map .unlinkat .unlink
  | .rename old new => (Fs.rename k.toKernel notifyOn (some l.renameat) old new w).map .renameat .rename
  | .renameat c => (Fs.renameat k.toKernel notifyOn (some l.renameat) c w).map .renameat .rename
  | .mmap64 c => (Fs.mmap64 k.toKernel notifyOn (some l.mmap64) c w).map .mmap64 .mmap
  | .mmap c => (Fs.mmap k.toKernel notifyOn (some l.mmap64) c w).map .mmap64 .mmap

/-- The call goes through as it stands: it keeps its descriptor and its result. -/
def LibCall.Kept (k : OpenKernel W) (notifyOn : Bool) (l : Libc W) (call : LibCall) (w : W) : Prop :=
  match call with
  | .unlinkat fd _ _ => notifyOn = false ∨ fd = atFdcwd
  | .renameat c => ¬ Overwrites k.toKernel notifyOn l.renameat c w
  | _ => True

/-! ## One call -/

/-- The wrapper of `openat` calls through, and what it records is under its name. -/
theorem openatOp_eq (k : OpenKernel W) (notifyOn : Bool) (f : Openat W) (op : String) (c : OpenCall) (w : W) :
    ∃ recs, openatOp k notifyOn (some f) op c w = callThrough f c w recs ∧ ∀ r ∈ recs, r.op = op := by
  have hrec : ∀ (due : Prop) [Decidable due] (path : List Char), ∃ recs : List CreateRecord,
      (⟨(f c w).1, (f c w).2, .call c :: if due then [.record (notifyCreate op path)] else []⟩ :
        Outcome W OpenCall CreateRecord) = callThrough f c w recs ∧ ∀ r ∈ recs, r.op = op := by
    intro due _ path
    by_cases h : due
    · exact ⟨[notifyCreate op path], by rw [if_pos h]; rfl, List.forall_mem_singleton.mpr rfl⟩
    · exact ⟨[], by rw [if_neg h]; rfl, List.forall_mem_nil _⟩
  by_cases hskip : ¬ notifyOn ∨ c.flags &&& oCREAT = 0
  · exact ⟨[], by simp only [openatOp, if_pos hskip]; rfl, List.forall_mem_nil _⟩
  · by_cases hfd : c.fd = atFdcwd
    · have hc : (⟨atFdcwd, c.path, c.flags, c.mode⟩ : OpenCall) = c := by rw [← hfd]
      simp only [openatOp, if_neg hskip, if_pos hfd, hc]
      exact hrec _ _
    · simp only [openatOp, if_neg hskip, if_neg hfd]
      exact hrec _ _

/-- So does that of `fopen`. -/
theorem fopen_through (k : OpenKernel W) (notifyOn : Bool) (g : Fopen W) (path flags : List Char) (w : W) :
    ∃ recs, fopen k notifyOn (some g) path flags w = callThrough g ⟨path, flags⟩ w recs ∧
      ∀ r ∈ recs, r.op = "fopen (create)" := by
  simp only [fopen]
  split_ifs
  · exact ⟨[notifyCreate "fopen (create)" path], rfl, List.forall_mem_singleton.mpr rfl⟩
  · exact ⟨[], rfl, List.forall_mem_nil _⟩

section Calls

variable {k : OpenKernel W} {notifyOn : Bool} {l : Libc W}

theorem openat_transparent {op : String} {c : OpenCall} {w : W} :
    Transparent l.call (.openat c) w ((openatOp k notifyOn (some l.openat) op c w).map Syscall.openat FileRecord.create) := by
  obtain ⟨recs, heq, -⟩ := openatOp_eq k notifyOn l.openat op c w
  rw [heq]
  apply (transparent_map_iff (fun _ _ => Syscall.openat.inj) fun _ => rfl).mpr
  exact transparent_call l.openat c w recs

theorem unlinkat_kept_iff {op : String} {fd : Int} {path : List Char} {flags : Int} {w : W} :
    Transparent l.call (.unlinkat ⟨fd, path, flags⟩) w
      ((unlinkatOp k.toKernel notifyOn (some l.unlinkat) op fd path flags w).map Syscall.unlinkat FileRecord.unlink) ↔
    notifyOn = false ∨ fd = atFdcwd := by
  have hiff := unlinkatOp_transparent_iff k.toKernel notifyOn l.unlinkat op fd path flags w
  rw [transparent_map_iff (fun _ _ => Syscall.unlinkat.inj) fun _ => rfl, ← hiff]
  refine ⟨fun h => ⟨h, ?_⟩, UnlinkTransparent.call⟩
  -- the record follows the call that is made
  obtain ⟨recs, heq, hrecs⟩ := unlinkatOp_eq k.toKernel notifyOn l.unlinkat op fd path flags w
  have hcall := h.once
  rw [heq, callThrough, calls_call, calls_map_record, List.cons.injEq] at hcall
  rw [hcall.1] at heq hrecs
  rw [heq]
  simpa [callThrough] using hrecs

theorem renameat_kept_iff {op : String} {c : RenameCall} {w : W} :
    Transparent l.call (.renameat c) w
      ((renameatOp k.toKernel notifyOn (some l.renameat) op c w).map Syscall.renameat FileRecord.rename) ↔
    ¬ Overwrites k.toKernel notifyOn l.renameat c w := by
  have hiff := renameatOp_transparent_iff k.toKernel notifyOn l.renameat op c w
  rw [transparent_map_iff (fun _ _ => Syscall.renameat.inj) fun _ => rfl, ← hiff]
  refine ⟨fun h => ?_, RenameTransparent.call⟩
  rw [hiff]
  intro hover
  obtain ⟨r, heq⟩ := renameatOp_eq k.toKernel notifyOn l.renameat op c w
  have hret := h.ret
  rw [heq] at hret
  simp only [if_pos hover] at hret
  exact hover.2.2.2.2 (hret.trans hover.2.2.1)

theorem mmap_transparent {op : String} {c : MmapCall} {w : W} :
    Transparent l.call (.mmap64 c) w
      ((mmapOp k.toKernel notifyOn (some l.mmap64) op c w).map Syscall.mmap64 FileRecord.mmap) := by
  rw [mmapOp_eq]
  apply (transparent_map_iff (fun _ _ => Syscall.mmap64.inj) fun _ => rfl).mpr
  exact transparent_call l.mmap64 c w _

/-- A call is transparent exactly if it goes through as it stands. -/
theorem LibCall.transparent_iff (call : LibCall) (w : W) :
    Transparent l.call call.asks w (call.run k notifyOn l w) ↔ call.Kept k notifyOn l w := by
  cases call with
  | creat path mode => exact iff_of_true openat_transparent trivial
  | «open» path flags mode => exact iff_of_true openat_transparent trivial
  | openat fd path flags mode => exact iff_of_true openat_transparent trivial
  | fopen path flags =>
    obtain ⟨recs, heq, -⟩ := fopen_through k notifyOn l.fopen path flags w
    refine iff_of_true ?_ trivial
    rw [LibCall.run, heq]
    apply (transparent_map_iff (fun _ _ => Syscall.fopen.inj) fun _ => rfl).mpr
    exact transparent_call l.fopen _ w recs
  | unlink path => exact iff_of_true (unlinkat_kept_iff.mpr (Or.inr rfl)) trivial
  | unlinkat fd path flags => exact unlinkat_kept_iff
  | rename old new => exact iff_of_true (renameat_kept_iff.mpr fun h => h.1 rfl) trivial
  | renameat c => exact renameat_kept_iff
  | mmap64 c => exact iff_of_true mmap_transparent trivial
  | mmap c => exact iff_of_true mmap_transparent trivial

end Calls

/-! ## A run of calls -/

/-- The world after a call of the program. -/
def Libc.next (l : Libc W) (k : OpenKernel W) (notifyOn : Bool) (w : W) (call : LibCall) : W :=
  (call.run k notifyOn l w).world

/-- **A program runs as it would without the library, exactly if its calls go through as they stand.** Every call of the
run makes the underlying call that it asked for and no other, returns its result and leaves its world, if and only if no
`unlinkat` of it has a directory descriptor while notifications are on, and no `renameat` has its result overwritten; and
then the results and the world at the end are those of the underlying calls alone. -/
theorem program_unseen_iff (k : OpenKernel W) (notifyOn : Bool) (l : Libc W) (w : W) (calls : List LibCall) :
    let unseen := EachStep (l.next k notifyOn)
      (fun w call => Transparent l.call call.asks w (call.run k notifyOn l w)) w calls
    let kept := EachStep (l.next k notifyOn) (fun w call => call.Kept k notifyOn l w) w calls
    (unseen ↔ kept) ∧ (kept → calls.foldl (asked fun call => call.run k notifyOn l) ([], w) =
      (calls.map LibCall.asks).foldl (bare l.call) ([], w)) := by
  intro unseen kept
  have hiff : unseen ↔ kept := by
    refine eachStep_iff_within (I := fun _ => True) (fun w call _ _ => call.transparent_iff w) (fun _ _ _ _ _ => trivial)
      trivial (eachStep_of_forall (V := fun _ => True) fun _ _ => trivial)
  refine ⟨hiff, fun hkept => ?_⟩
  exact transparent_run (hiff.mpr hkept)

/-- A file made, mapped, renamed and removed by `unlink`, on the working directory. -/
def plainCalls : List LibCall :=
  [.openat 5 "x".toList (oCREAT ||| oWRONLY) 0o600, .mmap ⟨0, 4096, protREAD, mapSHARED, 3, 0⟩,
    .rename "/data/d/x".toList "/data/d/y".toList, .unlink "/data/d/y".toList]

/-- A C library on no state at all. -/
def quietLibc : Libc Unit :=
  ⟨fun _ w => (3, w), fun _ w => (3, w), fun _ w => (0, w), quietRenameat, fun _ w => (0x1000, w)⟩

/-- A kernel on no state at all. -/
def quietOpenKernel : OpenKernel Unit := { quietKernel with access := fun _ _ => some eNOENT }

/-- A program of such calls does not see the library. -/
theorem plain_calls_unseen :
    plainCalls.foldl (asked fun call => call.run quietOpenKernel true quietLibc) ([], ()) =
      (plainCalls.map LibCall.asks).foldl (bare quietLibc.call) ([], ()) :=
  (program_unseen_iff quietOpenKernel true quietLibc () plainCalls).2 ⟨trivial, trivial, trivial, trivial, trivial⟩

end Cosmost.Fs
