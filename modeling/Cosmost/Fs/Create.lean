import Mathlib.Data.List.Infix
import Cosmost.Fs.Scope
import Cosmost.Lib.Interpose

/-!
# The wrappers that record the creation of a file (`open.c`, `fopen.c`)

`open`, `openat` and `creat` ask for a new file with a bit of their flags, `fopen` with the first letter of its mode.
The wrapper of the first three tests the bit; that of `fopen` searches the mode for `w+` or `a+`. Both ask the kernel
before the call whether the file is there, and decide after it.

`recorded_iff`: the wrappers record the files that are created, and those only, unless a file is created on a path that
`skip_path` skips or by an `fopen` whose mode has neither `w+` nor `a+`. `fopen_w_unrecorded` is such an `fopen`.
-/

namespace Cosmost.Fs

open Cosmost.Lib

variable {W : Type*}

/-- What the wrappers ask about before the call: the answer of `access(path, F_OK)`, an error number if it fails. -/
structure OpenKernel (W : Type*) extends Kernel W where
  access : W → List Char → Option Nat

/-- `O_WRONLY`. -/
def oWRONLY : Nat := 0x1
/-- `O_RDWR`. -/
def oRDWR : Nat := 0x2
/-- `O_CREAT`. -/
def oCREAT : Nat := 0x40
/-- `O_EXCL`. -/
def oEXCL : Nat := 0x80
/-- `O_TRUNC`. -/
def oTRUNC : Nat := 0x200
/-- `O_APPEND`. -/
def oAPPEND : Nat := 0x400
/-- `O_CLOEXEC`. -/
def oCLOEXEC : Nat := 0x80000

/-- The arguments of `openat`. -/
structure OpenCall where
  fd : Int
  path : List Char
  flags : Nat
  mode : Nat
  deriving DecidableEq, Repr

/-- The arguments of `fopen`. -/
structure FopenCall where
  path : List Char
  flags : List Char
  deriving DecidableEq, Repr

/-- What `notify_create` logs. -/
structure CreateRecord where
  op : String
  path : List Char
  deriving DecidableEq, Repr

/-- The type of the underlying `openat`. -/
abbrev Openat (W : Type*) := OpenCall → W → Int × W

/-- The type of the underlying `fopen`. A stream is its descriptor, and `-1` stands for the null pointer. -/
abbrev Fopen (W : Type*) := FopenCall → W → Int × W

/-- `open_init`: the call found before, or what `dlsym` finds under either name. -/
def openInit (found : Option (Openat W)) (dlsym : String → Option (Openat W)) : Option (Openat W) :=
  found <|> dlsym "openat" <|> dlsym "__open"

/-- `fopen_init`. -/
def fopenInit (found : Option (Fopen W)) (dlsym : String → Option (Fopen W)) : Option (Fopen W) :=
  found <|> dlsym "fopen" <|> dlsym "__fopen"

/-- `notify_create`. -/
def notifyCreate (op : String) (path : List Char) : CreateRecord := ⟨op, path⟩

/-- `notify(ret, S_IFREG, path)` after the call. -/
def Kernel.opened (k : Kernel W) (w : W) (ret : Int) (path : List Char) : Nat :=
  notify ret sIFREG path (k.fstat w ret) (k.lstat w path)

/-- `__OPENAT`. -/
def openatOp (k : OpenKernel W) (notifyOn : Bool) (openat : Option (Openat W)) (op : String) (c : OpenCall) (w : W) :
    Outcome W OpenCall CreateRecord :=
  match openat with
  | none => ⟨-1, w, []⟩
  | some f =>
    if ¬ notifyOn ∨ c.flags &&& oCREAT = 0 then ⟨(f c w).1, (f c w).2, [.call c]⟩
    else if c.fd = atFdcwd then
      let «exists» : Bool := !(k.access w c.path = some eNOENT)
      let (ret, w') := f ⟨atFdcwd, c.path, c.flags, c.mode⟩ w
      ⟨ret, w', .call ⟨atFdcwd, c.path, c.flags, c.mode⟩ ::
        if ret ≠ -1 ∧ ¬ «exists» ∧ k.opened w' ret c.path ≠ 0 then [.record (notifyCreate op c.path)] else []⟩
    else
      -- without a directory `abs` is not read, since the file then counts as there
      let («exists», abs) : Bool × List Char :=
        match fdToPath c.fd (k.readlink w c.fd) with
        | some dir =>
          if dir.length > 0 then (!(k.access w (absPath dir c.path) = some eNOENT), absPath dir c.path) else (true, [])
        | none => (true, [])
      let (ret, w') := f c w
      ⟨ret, w', .call c ::
        if ret ≠ -1 ∧ ¬ «exists» ∧ k.opened w' ret abs ≠ 0 then [.record (notifyCreate op abs)] else []⟩

/-- `creat`. -/
def creat (k : OpenKernel W) (notifyOn : Bool) (f : Option (Openat W)) (path : List Char) (mode : Nat) :
    W → Outcome W OpenCall CreateRecord :=
  openatOp k notifyOn f "creat (create)" ⟨atFdcwd, path, oCREAT ||| oTRUNC ||| oWRONLY, mode⟩

/-- The argument `mode` of `open` and `openat`, which is there only if the flags ask for a new file. -/
def openMode (flags mode : Nat) : Nat := if flags &&& oCREAT ≠ 0 then mode else 0

/-- `open`. -/
def «open» (k : OpenKernel W) (notifyOn : Bool) (f : Option (Openat W)) (path : List Char) (flags mode : Nat) :
    W → Outcome W OpenCall CreateRecord :=
  openatOp k notifyOn f "open (create)" ⟨atFdcwd, path, flags, openMode flags mode⟩

/-- `openat`. -/
def openat (k : OpenKernel W) (notifyOn : Bool) (f : Option (Openat W)) (fd : Int) (path : List Char)
    (flags mode : Nat) : W → Outcome W OpenCall CreateRecord :=
  openatOp k notifyOn f "openat (create)" ⟨fd, path, flags, openMode flags mode⟩

/-- `strstr(hay, needle) != NULL`. -/
def strstr (hay : List Char) (needle : String) : Bool := needle.toList <:+: hay

/-- `fopen`. -/
def fopen (k : OpenKernel W) (notifyOn : Bool) (fopen : Option (Fopen W)) (path flags : List Char) (w : W) :
    Outcome W FopenCall CreateRecord :=
  match fopen with
  | none => ⟨-1, w, []⟩
  | some g =>
    let «exists» : Bool := !((strstr flags "w+" || strstr flags "a+") && k.access w path = some eNOENT)
    let (fp, w') := g ⟨path, flags⟩ w
    ⟨fp, w', .call ⟨path, flags⟩ ::
      if fp ≠ -1 ∧ ¬ «exists» ∧ notifyOn ∧ k.opened w' fp path ≠ 0 then
        [.record (notifyCreate "fopen (create)" path)] else []⟩

/-! ## What the underlying calls do -/

/-- The flags that a mode of `fopen` means. -/
def fopenFlags : List Char → Option Nat
  | [] => none
  | c :: modifiers => do
    let create ← if c = 'r' then some 0 else if c = 'w' then some (oCREAT ||| oTRUNC)
      else if c = 'a' then some (oCREAT ||| oAPPEND) else none
    let access := if '+' ∈ modifiers then oRDWR else if c = 'r' then 0 else oWRONLY
    let excl := if 'x' ∈ modifiers then oEXCL else 0
    let cloexec := if 'e' ∈ modifiers then oCLOEXEC else 0
    some (create ||| access ||| excl ||| cloexec)

/-- What an underlying call with these flags does on a path in the world that `access` sees. If it opens a file that is
not there, it was asked to create one, and afterwards the file is there: the descriptor is that of a regular file, and
the path names it, or is a symbolic link to it. -/
structure Opens (k : OpenKernel W) (flags : Nat) (path : List Char) (w : W) (r : Int × W) : Prop where
  seen : r.1 ≠ -1 → k.access w path = none ∨ k.access w path = some eNOENT
  asked : r.1 ≠ -1 → k.access w path = some eNOENT → flags &&& oCREAT ≠ 0
  there : r.1 ≠ -1 → k.access w path = some eNOENT → k.access r.2 path = none
  regular : r.1 ≠ -1 → k.access w path = some eNOENT →
    ∃ st, k.fstat r.2 r.1 = .mode st ∧ st &&& sIFMT = sIFREG
  named : r.1 ≠ -1 → k.access w path = some eNOENT →
    ∃ st, k.lstat r.2 path = .mode st ∧ (st &&& sIFMT = sIFREG ∨ st &&& sIFMT = sIFLNK)

/-- The call succeeded, the file was not there before it, and is there after it. -/
def Created (k : OpenKernel W) (path : List Char) (w : W) (r : Int × W) : Prop :=
  r.1 ≠ -1 ∧ k.access w path ≠ none ∧ k.access r.2 path = none

instance (k : OpenKernel W) (path : List Char) (w : W) (r : Int × W) : Decidable (Created k path w r) :=
  inferInstanceAs (Decidable (_ ∧ _ ∧ _))

section Opens

variable {k : OpenKernel W} {flags : Nat} {path : List Char} {w : W} {r : Int × W} (h : Opens k flags path w r)
include h

theorem Opens.created_iff : Created k path w r ↔ r.1 ≠ -1 ∧ k.access w path = some eNOENT := by
  constructor
  · rintro ⟨hret, hbefore, -⟩
    exact ⟨hret, (h.seen hret).resolve_left hbefore⟩
  · rintro ⟨hret, hbefore⟩
    exact ⟨hret, by simp [hbefore], h.there hret hbefore⟩

theorem Opens.asked_of_created (hc : Created k path w r) : flags &&& oCREAT ≠ 0 := by
  obtain ⟨hret, hbefore⟩ := h.created_iff.mp hc
  exact h.asked hret hbefore

/-- The scope check after the call lets a file that was created pass, unless its path is skipped. -/
theorem Opens.opened_iff (hc : Created k path w r) : k.opened r.2 r.1 path ≠ 0 ↔ skipPath path = false := by
  obtain ⟨hret, hbefore⟩ := h.created_iff.mp hc
  obtain ⟨st, hst, hreg⟩ := h.regular hret hbefore
  obtain ⟨st', hst', htype⟩ := h.named hret hbefore
  rw [Kernel.opened, notify, hst, hst']
  cases skipPath path with
  | true => simp
  | false =>
    have hpass : ∃ s, (if 0 < r.1 then StatResult.mode st else .mode st') = .mode s ∧
        sIFREG &&& (s &&& sIFMT) ≠ 0 ∧ s &&& sIFMT ≠ 0 := by
      split_ifs
      · exact ⟨st, rfl, by rw [hreg]; decide, by rw [hreg]; decide⟩
      · refine ⟨st', rfl, ?_⟩
        rcases htype with htype | htype <;> rw [htype] <;> decide
    obtain ⟨s, hs, hbit, htype⟩ := hpass
    simp [hs, hbit, htype]

end Opens

/-! ## Files created and files recorded -/

/-- The wrapper emitted one record, of this path, if the file was created, and none otherwise. -/
def Recorded (k : OpenKernel W) (op : String) (path : List Char) (w : W) {C : Type*}
    (out : Outcome W C CreateRecord) : Prop :=
  records out.acts = if Created k path w (out.ret, out.world) then [⟨op, path⟩] else []

instance (k : OpenKernel W) (op : String) (path : List Char) (w : W) {C : Type*} (out : Outcome W C CreateRecord) :
    Decidable (Recorded k op path w out) := inferInstanceAs (Decidable (_ = _))

/-- What the search of `fopen` finds. -/
def asksNew (flags : List Char) : Bool := strstr flags "w+" || strstr flags "a+"

/-- What the wrapper of an underlying call with flags does. -/
theorem open_eq {k : OpenKernel W} {f : Openat W} {path : List Char} {flags mode : Nat} {w : W}
    (h : Opens k flags path w (f ⟨atFdcwd, path, flags, mode⟩ w)) (op : String) :
    openatOp k true (some f) op ⟨atFdcwd, path, flags, mode⟩ w = callThrough f ⟨atFdcwd, path, flags, mode⟩ w
      (if Created k path w (f ⟨atFdcwd, path, flags, mode⟩ w) ∧ skipPath path = false then [⟨op, path⟩] else []) := by
  set r := f ⟨atFdcwd, path, flags, mode⟩ w with hr
  by_cases hc : Created k path w r
  · obtain ⟨hret, hbefore⟩ := h.created_iff.mp hc
    have hflag := h.asked_of_created hc
    have hopened := h.opened_iff hc
    by_cases hskip : skipPath path = false
    · simp [openatOp, callThrough, ← hr, hc, hskip, hflag, hbefore, hret, hopened.mpr hskip, notifyCreate]
    · have hzero : k.opened r.2 r.1 path = 0 := by simpa [hskip] using hopened
      simp [openatOp, callThrough, ← hr, hskip, hzero]
  · have hnew : ¬ (r.1 ≠ -1 ∧ k.access w path = some eNOENT) := fun hn => hc (h.created_iff.mpr hn)
    have hnone : ∀ n : Nat, ¬ (r.1 ≠ -1 ∧ k.access w path = some eNOENT ∧ n ≠ 0) := fun n hn => hnew ⟨hn.1, hn.2.1⟩
    simp [openatOp, callThrough, ← hr, hc, hnone]

/-- What the wrapper of `fopen` does. -/
theorem fopen_eq {k : OpenKernel W} {g : Fopen W} {path flags : List Char} {fl : Nat} {w : W}
    (h : Opens k fl path w (g ⟨path, flags⟩ w)) :
    fopen k true (some g) path flags w = callThrough g ⟨path, flags⟩ w
      (if Created k path w (g ⟨path, flags⟩ w) ∧ skipPath path = false ∧ asksNew flags then
        [⟨"fopen (create)", path⟩] else []) := by
  set r := g ⟨path, flags⟩ w with hr
  have hasks : (strstr flags "w+" || strstr flags "a+") = asksNew flags := rfl
  by_cases hc : Created k path w r
  · obtain ⟨hret, hbefore⟩ := h.created_iff.mp hc
    have hopened := h.opened_iff hc
    by_cases hskip : skipPath path = false
    · cases hnew : asksNew flags <;>
        simp [fopen, callThrough, hasks, ← hr, hc, hskip, hnew, hbefore, hret, hopened.mpr hskip, notifyCreate]
    · have hzero : k.opened r.2 r.1 path = 0 := by simpa [hskip] using hopened
      simp [fopen, callThrough, hasks, ← hr, hskip, hzero]
  · have hnone : ∀ n : Nat, ¬ (r.1 ≠ -1 ∧ (asksNew flags = true ∧ k.access w path = some eNOENT) ∧ n ≠ 0) :=
      fun n hn => hc (h.created_iff.mpr ⟨hn.1, hn.2.1.2⟩)
    simp [fopen, callThrough, hasks, ← hr, hc, hnone]

/-- A call with a record for a file that is created under a condition records what is created if the condition holds of
whatever is. -/
theorem recorded_callThrough_iff {C : Type*} (k : OpenKernel W) (f : C → W → Int × W) (c : C) (op : String)
    (path : List Char) (w : W) (P : Prop) [Decidable P] :
    Recorded k op path w (callThrough f c w (if Created k path w (f c w) ∧ P then [⟨op, path⟩] else [])) ↔
      (Created k path w (f c w) → P) := by
  by_cases hc : Created k path w (f c w) <;> by_cases hP : P <;> simp [Recorded, callThrough, hc, hP]

theorem Recorded.paths {C : Type*} {k : OpenKernel W} {op : String} {path : List Char} {w : W}
    {out : Outcome W C CreateRecord} (h : Recorded k op path w out) :
    (records out.acts).map CreateRecord.path = if Created k path w (out.ret, out.world) then [path] else [] := by
  rw [h]
  split_ifs <;> rfl

/-- The calls that the wrappers make on one path in one world, through what `dlsym` finds. -/
structure Calls (W : Type*) where
  under : Openat W
  underStream : Fopen W
  path : List Char
  flags : Nat
  mode : Nat
  streamFlags : List Char
  w : W

/-- What the underlying call of `open` does. -/
def Calls.opens (c : Calls W) : Int × W := c.under ⟨atFdcwd, c.path, c.flags, openMode c.flags c.mode⟩ c.w

/-- What the underlying call of `creat` does. -/
def Calls.creats (c : Calls W) : Int × W := c.under ⟨atFdcwd, c.path, oCREAT ||| oTRUNC ||| oWRONLY, c.mode⟩ c.w

/-- What the underlying call of `fopen` does. -/
def Calls.fopens (c : Calls W) : Int × W := c.underStream ⟨c.path, c.streamFlags⟩ c.w

/-- The underlying calls do what their flags and mode mean, in the world that `access` sees. -/
structure Calls.Documented (k : OpenKernel W) (c : Calls W) : Prop where
  opens : Opens k c.flags c.path c.w c.opens
  creats : Opens k (oCREAT ||| oTRUNC ||| oWRONLY) c.path c.w c.creats
  fopens : ∃ flags, fopenFlags c.streamFlags = some flags ∧ Opens k flags c.path c.w c.fopens

/-- The wrappers record the files that they create and no others, and so `open` and `fopen` agree on a mode that means
the flags, where both make the same underlying call. -/
structure Calls.AllRecorded (k : OpenKernel W) (found : Option (Openat W)) (foundStream : Option (Fopen W))
    (c : Calls W) : Prop where
  byOpen : Recorded k "open (create)" c.path c.w («open» k true found c.path c.flags c.mode c.w)
  byCreat : Recorded k "creat (create)" c.path c.w (creat k true found c.path c.mode c.w)
  byFopen : Recorded k "fopen (create)" c.path c.w (fopen k true foundStream c.path c.streamFlags c.w)
  agree : fopenFlags c.streamFlags = some c.flags → c.fopens = c.opens →
    (records («open» k true found c.path c.flags c.mode c.w).acts).map CreateRecord.path
      = (records (fopen k true foundStream c.path c.streamFlags c.w).acts).map CreateRecord.path

/-- Whether a file is created. -/
def Calls.Creates (k : OpenKernel W) (c : Calls W) : Prop :=
  Created k c.path c.w c.opens ∨ Created k c.path c.w c.creats ∨ Created k c.path c.w c.fopens

/-- **The wrappers record exactly the files that are created, unless one is created on a path that is skipped, or by an
`fopen` whose mode has neither `w+` nor `a+`.** -/
theorem recorded_iff (k : OpenKernel W) (found : Option (Openat W)) (foundStream : Option (Fopen W))
    (dlsym : String → Option (Openat W)) (dlsymStream : String → Option (Fopen W)) (c : Calls W)
    (hf : openInit found dlsym = some c.under) (hg : fopenInit foundStream dlsymStream = some c.underStream)
    (h : c.Documented k) :
    c.AllRecorded k (openInit found dlsym) (fopenInit foundStream dlsymStream) ↔
      (c.Creates k → skipPath c.path = false) ∧ (Created k c.path c.w c.fopens → asksNew c.streamFlags) := by
  obtain ⟨fl, -, hstream⟩ := h.fopens
  have hopen := recorded_callThrough_iff k c.under ⟨atFdcwd, c.path, c.flags, openMode c.flags c.mode⟩
    "open (create)" c.path c.w (skipPath c.path = false)
  have hcreat := recorded_callThrough_iff k c.under ⟨atFdcwd, c.path, oCREAT ||| oTRUNC ||| oWRONLY, c.mode⟩
    "creat (create)" c.path c.w (skipPath c.path = false)
  have hfopen := recorded_callThrough_iff k c.underStream ⟨c.path, c.streamFlags⟩ "fopen (create)" c.path c.w
    (skipPath c.path = false ∧ asksNew c.streamFlags)
  rw [← open_eq h.opens] at hopen
  rw [← open_eq h.creats] at hcreat
  rw [← fopen_eq hstream] at hfopen
  rw [hf, hg]
  constructor
  · intro ha
    have h1 := hopen.mp ha.byOpen
    have h2 := hcreat.mp ha.byCreat
    have h3 := hfopen.mp ha.byFopen
    exact ⟨fun hc => hc.elim h1 (·.elim h2 fun hc => (h3 hc).1), fun hc => (h3 hc).2⟩
  · rintro ⟨hskip, hasks⟩
    have h1 : Recorded k "open (create)" c.path c.w («open» k true (some c.under) c.path c.flags c.mode c.w) :=
      hopen.mpr fun hc => hskip (Or.inl hc)
    have h3 : Recorded k "fopen (create)" c.path c.w (fopen k true (some c.underStream) c.path c.streamFlags c.w) :=
      hfopen.mpr fun hc => ⟨hskip (Or.inr (Or.inr hc)), hasks hc⟩
    refine ⟨h1, hcreat.mpr fun hc => hskip (Or.inr (Or.inl hc)), h3, fun _ hsame => ?_⟩
    have hends : ((«open» k true (some c.under) c.path c.flags c.mode c.w).ret,
        («open» k true (some c.under) c.path c.flags c.mode c.w).world) = c.opens := by
      rw [«open», open_eq h.opens]
      rfl
    have hendsStream : ((fopen k true (some c.underStream) c.path c.streamFlags c.w).ret,
        (fopen k true (some c.underStream) c.path c.streamFlags c.w).world) = c.fopens := by
      rw [fopen_eq hstream]
      rfl
    rw [h1.paths, h3.paths, hends, hendsStream, hsame]

/-! ## A file created by a plain `w` -/

/-- A kernel that knows whether one file, a regular one, is there. -/
def fileKernel : OpenKernel Bool :=
  ⟨⟨fun _ _ => none, fun _ _ => .mode 0x81a4, fun there _ => if there then .mode 0x81a4 else .error eNOENT⟩,
    fun there _ => if there then none else some eNOENT⟩

/-- Opening that file with flags. -/
def fileOpen (flags : Nat) (there : Bool) : Int × Bool :=
  if there then (3, true) else if flags &&& oCREAT ≠ 0 then (3, true) else (-1, false)

theorem fileOpen_opens (flags : Nat) (path : List Char) (there : Bool) :
    Opens fileKernel flags path there (fileOpen flags there) := by
  cases there with
  | true => refine ⟨fun _ => Or.inl rfl, ?_, ?_, ?_, ?_⟩ <;> simp [fileKernel]
  | false =>
    by_cases hflags : flags &&& oCREAT = 0
    · constructor <;> simp [fileOpen, hflags]
    · refine ⟨fun _ => Or.inr rfl, fun _ _ => hflags, fun _ _ => ?_, fun _ _ => ?_, fun _ _ => ?_⟩
      · simp [fileOpen, hflags, fileKernel]
      · exact ⟨0x81a4, rfl, by decide⟩
      · exact ⟨0x81a4, by simp [fileOpen, hflags, fileKernel], by decide⟩

/-- The calls on a file of `/data` that is not there, with a mode of `fopen`. -/
def fileCalls (streamFlags : String) : Calls Bool where
  under := fun c => fileOpen c.flags
  underStream := fun c => fileOpen ((fopenFlags c.flags).getD 0)
  path := "/data/x".toList
  flags := oCREAT ||| oTRUNC ||| oWRONLY
  mode := 0o666
  streamFlags := streamFlags.toList
  w := false

theorem fileCalls_documented {streamFlags : String} {fl : Nat} (h : fopenFlags streamFlags.toList = some fl) :
    (fileCalls streamFlags).Documented fileKernel where
  opens := fileOpen_opens ..
  creats := by simpa only [Calls.creats, fileCalls] using fileOpen_opens (oCREAT ||| oTRUNC ||| oWRONLY) _ _
  fopens := by
    have hfl : (fopenFlags streamFlags.toList).getD 0 = fl := by rw [h, Option.getD_some]
    exact ⟨fl, h, by simpa only [Calls.fopens, fileCalls, hfl] using fileOpen_opens fl _ _⟩

/-- With the mode `w+` all of them are recorded. -/
theorem wplus_recorded :
    (fileCalls "w+").AllRecorded fileKernel (openInit none fun _ => some (fileCalls "w+").under)
        (fopenInit none fun _ => some (fileCalls "w+").underStream) ↔
      ((fileCalls "w+").Creates fileKernel → skipPath (fileCalls "w+").path = false) ∧
      (Created fileKernel (fileCalls "w+").path (fileCalls "w+").w (fileCalls "w+").fopens →
        asksNew (fileCalls "w+").streamFlags) :=
  recorded_iff fileKernel none none (fun _ => some (fileCalls "w+").under) (fun _ => some (fileCalls "w+").underStream)
    (fileCalls "w+") rfl rfl (fileCalls_documented rfl)

/-- **`fopen` with the mode `w` creates `/data/x` and does not record it; `open` with the flags that the mode means
does.** -/
theorem fopen_w_unrecorded :
    fopenFlags (fileCalls "w").streamFlags = some (fileCalls "w").flags ∧
    (fileCalls "w").Documented fileKernel ∧ (fileCalls "w").fopens = (fileCalls "w").opens ∧
    ¬ (fileCalls "w").AllRecorded fileKernel (some (fileCalls "w").under) (some (fileCalls "w").underStream) := by
  refine ⟨by decide, fileCalls_documented rfl, by decide, fun h => ?_⟩
  have hnone := h.byFopen
  exact absurd hnone (by decide)

end Cosmost.Fs
