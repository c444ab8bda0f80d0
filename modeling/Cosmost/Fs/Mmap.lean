import Cosmost.Fs.Scope
import Cosmost.Lib.Interpose

/-!
# The wrapper of `mmap` and `mmap64` (`mmap.c`)

The wrapper calls the underlying `mmap64` and records a mapping of a file in scope: the call succeeded, notifications are
on, the mapping has a descriptor and is not anonymous, and the path of the descriptor passes the scope check. Nothing is
pending between calls: `last_mmap_fd` is never set, so `mmap_close` does nothing.

`mmapOp_eq` says what the wrapper does: the call and its result, and at most one record.
-/

namespace Cosmost.Fs

open Cosmost.Lib

variable {W : Type*}

/-- `MAP_FAILED`, as a number; other addresses are natural. -/
def mapFailed : Int := -1
/-- `PROT_READ`. -/
def protREAD : Nat := 0x1
/-- `PROT_WRITE`. -/
def protWRITE : Nat := 0x2
/-- `PROT_EXEC`. -/
def protEXEC : Nat := 0x4
/-- `MAP_SHARED`. -/
def mapSHARED : Nat := 0x1
/-- `MAP_PRIVATE`. -/
def mapPRIVATE : Nat := 0x2
/-- `MAP_ANONYMOUS`. -/
def mapANONYMOUS : Nat := 0x20

/-- The arguments of `mmap64`. -/
structure MmapCall where
  addr : Nat
  length : Nat
  prot : Nat
  flags : Nat
  fd : Int
  offset : Int
  deriving DecidableEq, Repr

/-- What `notify_mmap` logs. -/
structure MmapRecord where
  op : String
  path : List Char
  addr : Nat
  prot : String
  size : Nat
  off : Int
  deriving DecidableEq, Repr

/-- The type of the underlying `mmap64`: it returns an address, or `MAP_FAILED`. -/
abbrev Mmap64 (W : Type*) := MmapCall → W → Int × W

/-- `mmap_init`: the call found before, or what `dlsym` finds under either name. -/
def mmapInit (found : Option (Mmap64 W)) (dlsym : String → Option (Mmap64 W)) : Option (Mmap64 W) :=
  found <|> dlsym "mmap64" <|> dlsym "__mmap64"

/-- `prot_str`. -/
def protStr (prot flags : Nat) : String :=
  String.ofList [if prot &&& protREAD ≠ 0 then 'R' else '-', if prot &&& protWRITE ≠ 0 then 'W' else '-',
    if prot &&& protEXEC ≠ 0 then 'X' else '-',
    if flags &&& mapSHARED ≠ 0 then 'S' else if flags &&& mapPRIVATE ≠ 0 then 'P' else '-']

/-- `notify_mmap`. -/
def notifyMmap (op : String) (path : List Char) (addr : Int) (prot : String) (size : Nat) (off : Int) : MmapRecord :=
  ⟨op, path, addr.toNat, prot, size, off⟩

/-- The path of the descriptor, if it passes the scope check, after the call. -/
def Kernel.mapped (k : Kernel W) (w : W) (fd : Int) : Option (List Char) :=
  (fdToPath fd (k.readlink w fd)).filter fun path => notify fd sIFREG path (k.fstat w fd) (k.lstat w path) ≠ 0

/-- `_MMAP64`. -/
def mmapOp (k : Kernel W) (notifyOn : Bool) (mmap64 : Option (Mmap64 W)) (op : String) (c : MmapCall) (w : W) :
    Outcome W MmapCall MmapRecord :=
  match mmap64 with
  -- the null pointer, not `MAP_FAILED`
  | none => ⟨0, w, []⟩
  | some f =>
    let (ret, w') := f c w
    ⟨ret, w', .call c ::
      if ret ≠ mapFailed ∧ notifyOn ∧ c.fd ≠ -1 ∧ c.flags &&& mapANONYMOUS = 0 then
        match k.mapped w' c.fd with
        | some path => [.record (notifyMmap op path ret (protStr c.prot c.flags) c.length c.offset)]
        | none => []
      else []⟩

/-- `mmap64`. -/
def mmap64 (k : Kernel W) (notifyOn : Bool) (f : Option (Mmap64 W)) (c : MmapCall) :
    W → Outcome W MmapCall MmapRecord := mmapOp k notifyOn f "mmap64" c

/-- `mmap`; its offset is widened. -/
def mmap (k : Kernel W) (notifyOn : Bool) (f : Option (Mmap64 W)) (c : MmapCall) :
    W → Outcome W MmapCall MmapRecord := mmapOp k notifyOn f "mmap" c

/-- The record of a mapping, if it is due. -/
def mmapRecord (k : Kernel W) (notifyOn : Bool) (op : String) (c : MmapCall) (r : Int × W) : Option MmapRecord :=
  if r.1 ≠ mapFailed ∧ notifyOn ∧ c.fd ≠ -1 ∧ c.flags &&& mapANONYMOUS = 0 then
    (k.mapped r.2 c.fd).map fun path => notifyMmap op path r.1 (protStr c.prot c.flags) c.length c.offset
  else none

/-- **The wrapper calls through**, and records at most one mapping. -/
theorem mmapOp_eq (k : Kernel W) (notifyOn : Bool) (f : Mmap64 W) (op : String) (c : MmapCall) (w : W) :
    mmapOp k notifyOn (some f) op c w = callThrough f c w (mmapRecord k notifyOn op c (f c w)).toList := by
  simp only [mmapOp, mmapRecord, callThrough]
  split_ifs
  · cases k.mapped (f c w).2 c.fd with
    | none => rfl
    | some path => rfl
  · rfl

end Cosmost.Fs
