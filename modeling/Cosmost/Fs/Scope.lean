import Cosmost.Limits
import Cosmost.Lib.Text

/-!
# Paths of descriptors and the scope decision (`fs.c`)

`fdToPath` reads the path of a descriptor from `/proc`; `notify` decides whether a path is in scope, and `mode` names
the file type that it returns. What the kernel answers (`readlink`, `fstat`, `lstat`) is an argument.
-/

namespace Cosmost.Fs

/-- A path that the kernel names a file by. -/
structure Path where
  chars : List Char
  nulFree : Lib.NulFree chars
  short : chars.length < pathMax

/-- What `fstat` or `lstat` answers: the mode of the file, or an error number. -/
inductive StatResult
  | mode (stMode : Nat)
  | error (errno : Nat)
  deriving DecidableEq, Repr

/-- `S_IFMT`. -/
def sIFMT : Nat := 0xf000
/-- `S_IFREG`. -/
def sIFREG : Nat := 0x8000
/-- `S_IFDIR`. -/
def sIFDIR : Nat := 0x4000
/-- `S_IFLNK`. -/
def sIFLNK : Nat := 0xa000
/-- `EPERM`. -/
def ePERM : Nat := 1
/-- `ENOENT`. -/
def eNOENT : Nat := 2
/-- `AT_FDCWD`. -/
def atFdcwd : Int := -100

/-- `fd_to_path`: the new contents of the path buffer, or `none` when it returns `-1` and leaves the buffer. The
result of the C function is the length of the contents. -/
def fdToPath (fdesc : Int) (link : Option (List Char)) : Option (List Char) :=
  if fdesc = -1 then none else link.map (·.take (pathMax - 1))

/-- `!strncmp(path, lit, n)`. -/
def startsAs (path : List Char) (lit : String) (n : Nat) : Bool := path.take n == lit.toList.take n

/-- `skip_path`. -/
def skipPath (path : List Char) : Bool :=
  if startsAs path "/mnt/asec/" "/mnt/asec".length || startsAs path "/mnt/secure/" "/mnt/secure".length then true
  else !startsAs path "/system/" "/system/".length && !startsAs path "/sdcard/" "/sdcard/".length &&
    !startsAs path "/mnt/" "/mnt/".length && !startsAs path "/storage/" "/storage/".length &&
    !startsAs path "/data/" "/data/".length

/-- `notify`: the file's type if the path is in scope, `0` if it is not. -/
def notify (fd : Int) (flags : Nat) (path : List Char) (fstat lstat : StatResult) : Nat :=
  if skipPath path then 0
  else
    match if 0 < fd then fstat else lstat with
    | .error errno => if errno = eNOENT ∨ errno = ePERM then flags &&& sIFMT else 0
    | .mode stMode => if flags &&& (stMode &&& sIFMT) = 0 then 0 else stMode &&& sIFMT

/-- `snprintf(&dir[len], PATH_MAX - len, "/%s", path)`: the path under a directory, as far as it fits. -/
def absPath (dir path : List Char) : List Char := dir ++ Lib.fits (pathMax - dir.length) ('/' :: path)

/-- `mode(flags)` of `notify.c`. -/
def mode (flags : Nat) : String :=
  if flags &&& sIFMT = sIFREG ||| sIFDIR then "FILE_OR_DIR"
  else if flags &&& sIFMT = sIFREG then "FILE"
  else if flags &&& sIFMT = sIFDIR then "DIR"
  else "UNKNOWN"

/-- What the wrappers ask the kernel about, in each state of the world. -/
structure Kernel (W : Type*) where
  /-- `readlink("/proc/<pid>/fd/<fd>")`. -/
  readlink : W → Int → Option (List Char)
  fstat : W → Int → StatResult
  lstat : W → List Char → StatResult

variable {W : Type*}

/-- The scope check of the wrappers on a path: the type of the file, or `0`. -/
def Kernel.scope (k : Kernel W) (w : W) (path : List Char) : Nat :=
  notify (-1) (sIFREG ||| sIFDIR) path (k.fstat w (-1)) (k.lstat w path)

/-- The scope check on a path under a directory descriptor: its result and the absolute path that it was made on. The
path is not read while the result is `0`. -/
def Kernel.scopeAt (k : Kernel W) (w : W) (fd : Int) (path : List Char) : Nat × List Char :=
  match fdToPath fd (k.readlink w fd) with
  | some dir => if dir.length > 0 then (k.scope w (absPath dir path), absPath dir path) else (0, [])
  | none => (0, [])

/-- A path of the kernel fits the path buffer. -/
theorem fdToPath_path {fdesc : Int} (h : fdesc ≠ -1) (p : Path) : fdToPath fdesc (some p.chars) = some p.chars := by
  have hp := p.short
  simp only [fdToPath, h, ↓reduceIte, Option.map_some, Option.some.injEq]
  exact List.take_of_length_le (by omega)

/-- What is found in the buffer after a lookup that succeeds is the link's text. -/
theorem eq_of_fdToPath {fdesc : Int} {link : Option Path} {q : List Char}
    (h : fdToPath fdesc (link.map Path.chars) = some q) : ∃ p, link = some p ∧ q = p.chars := by
  cases link with
  | none => simp [fdToPath] at h
  | some p =>
    by_cases hf : fdesc = -1
    · simp [fdToPath, hf] at h
    · rw [Option.map_some, fdToPath_path hf, Option.some.injEq] at h
      exact ⟨p, rfl, h.symm⟩

end Cosmost.Fs
