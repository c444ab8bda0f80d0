import Cosmost.Fs.Scope
import Cosmost.Lib.Interpose

/-!
# The wrapper of `unlink` and `unlinkat` (`unlink.c`)

The underlying `unlinkat` is whatever `dlsym` finds, a parameter; so are the answers of the kernel, which may change
with the world. With notifications on, the branch for a directory descriptor computes the absolute path for the
record and then passes `AT_FDCWD` and the caller's relative path to the underlying call.

`unlinkat_transparent_iff`: the wrapper is transparent exactly when notifications are off or the descriptor is
`AT_FDCWD`; `unlink` always is. `unlinkat_drops_descriptor` shows what happens otherwise.
-/

namespace Cosmost.Fs

open Cosmost.Lib

variable {W : Type*}

/-- The arguments of `unlinkat`. -/
structure UnlinkCall where
  fd : Int
  path : List Char
  flags : Int
  deriving DecidableEq, Repr

/-- What `notify_unlink` logs. -/
structure UnlinkRecord where
  op : String
  mode : String
  path : List Char
  deriving DecidableEq, Repr

/-- The type of the underlying call. -/
abbrev Unlinkat (W : Type*) := UnlinkCall → W → Int × W

/-- `unlink_init`: the call found before, or what `dlsym` finds under either name. -/
def unlinkInit (found : Option (Unlinkat W)) (dlsym : String → Option (Unlinkat W)) : Option (Unlinkat W) :=
  found <|> dlsym "unlinkat" <|> dlsym "__unlinkat"

/-- `notify_unlink`. -/
def notifyUnlink (op : String) (flags : Nat) (path : List Char) : UnlinkRecord := ⟨op, mode flags, path⟩

/-- `__UNLINKAT`. -/
def unlinkatOp (k : Kernel W) (notifyOn : Bool) (unlinkat : Option (Unlinkat W)) (op : String) (fd : Int)
    (path : List Char) (flags : Int) (w : W) : Outcome W UnlinkCall UnlinkRecord :=
  match unlinkat with
  | none => ⟨-1, w, []⟩
  | some f =>
    if ¬ notifyOn then ⟨(f ⟨fd, path, flags⟩ w).1, (f ⟨fd, path, flags⟩ w).2, [.call ⟨fd, path, flags⟩]⟩
    else if fd = atFdcwd then
      let flag := k.scope w path
      let (ret, w') := f ⟨atFdcwd, path, flags⟩ w
      ⟨ret, w', .call ⟨atFdcwd, path, flags⟩ ::
        if ret = 0 ∧ flag ≠ 0 then [.record (notifyUnlink op flag path)] else []⟩
    else
      let (flag, abs) := k.scopeAt w fd path
      let (ret, w') := f ⟨atFdcwd, path, flags⟩ w
      ⟨ret, w', .call ⟨atFdcwd, path, flags⟩ ::
        if ret = 0 ∧ flag ≠ 0 then [.record (notifyUnlink op flag abs)] else []⟩

/-- `unlinkat`. -/
def unlinkat (k : Kernel W) (notifyOn : Bool) (f : Option (Unlinkat W)) (fd : Int) (path : List Char) (flags : Int) :
    W → Outcome W UnlinkCall UnlinkRecord := unlinkatOp k notifyOn f "unlinkat" fd path flags

/-- `unlink`. -/
def unlink (k : Kernel W) (notifyOn : Bool) (f : Option (Unlinkat W)) (path : List Char) :
    W → Outcome W UnlinkCall UnlinkRecord := unlinkatOp k notifyOn f "unlink" atFdcwd path 0

/-! ## Transparency -/

/-- The wrapper made the caller's call and no other, returns its result and leaves its world; it emitted a record,
one at most, only if the call succeeded. -/
structure UnlinkTransparent (f : Unlinkat W) (c : UnlinkCall) (w : W) (out : Outcome W UnlinkCall UnlinkRecord) :
    Prop where
  call : Transparent f c w out
  record : records out.acts = [] ∨ (f c w).1 = 0 ∧ ∃ r, records out.acts = [r]

/-- The underlying call that the wrapper makes, whatever the lookups and the scope check say. -/
theorem unlinkatOp_eq (k : Kernel W) (notifyOn : Bool) (f : Unlinkat W) (op : String) (fd : Int) (path : List Char)
    (flags : Int) (w : W) :
    ∃ recs : List UnlinkRecord,
      unlinkatOp k notifyOn (some f) op fd path flags w
        = callThrough f ⟨if notifyOn then atFdcwd else fd, path, flags⟩ w recs ∧
      (recs = [] ∨ (f ⟨if notifyOn then atFdcwd else fd, path, flags⟩ w).1 = 0 ∧ ∃ r, recs = [r]) := by
  have hrec : ∀ (c : UnlinkCall) (flag : Nat) (r : UnlinkRecord),
      ∃ recs : List UnlinkRecord,
        (⟨(f c w).1, (f c w).2, .call c :: if (f c w).1 = 0 ∧ flag ≠ 0 then [.record r] else []⟩ :
          Outcome W UnlinkCall UnlinkRecord) = callThrough f c w recs ∧
        (recs = [] ∨ (f c w).1 = 0 ∧ ∃ r, recs = [r]) := by
    intro c flag r
    by_cases h : (f c w).1 = 0 ∧ flag ≠ 0
    · exact ⟨[r], by rw [if_pos h]; rfl, Or.inr ⟨h.1, r, rfl⟩⟩
    · exact ⟨[], by rw [if_neg h]; rfl, Or.inl rfl⟩
  cases notifyOn with
  | false => exact ⟨[], rfl, Or.inl rfl⟩
  | true =>
    by_cases hfd : fd = atFdcwd
    · simp only [unlinkatOp, hfd, not_true_eq_false, ↓reduceIte]
      exact hrec _ _ _
    · simp only [unlinkatOp, hfd, not_true_eq_false, ↓reduceIte]
      exact hrec _ _ _

/-- The wrapper is transparent exactly when the descriptor that it passes on is the caller's. -/
theorem unlinkatOp_transparent_iff (k : Kernel W) (notifyOn : Bool) (f : Unlinkat W) (op : String) (fd : Int)
    (path : List Char) (flags : Int) (w : W) :
    UnlinkTransparent f ⟨fd, path, flags⟩ w (unlinkatOp k notifyOn (some f) op fd path flags w) ↔
      notifyOn = false ∨ fd = atFdcwd := by
  obtain ⟨recs, heq, hrecs⟩ := unlinkatOp_eq k notifyOn f op fd path flags w
  rw [heq]
  constructor
  · intro h
    have hcall := h.call.once
    simp only [callThrough, calls_call, calls_map_record, List.cons.injEq, and_true, UnlinkCall.mk.injEq] at hcall
    cases notifyOn with
    | false => exact Or.inl rfl
    | true => exact Or.inr hcall.symm
  · intro h
    have hfd : (if notifyOn then atFdcwd else fd) = fd := by
      rcases h with rfl | rfl <;> simp
    rw [hfd] at hrecs ⊢
    exact ⟨transparent_call f _ w recs, by simpa [callThrough] using hrecs⟩

/-- **`unlinkat` is transparent exactly when notifications are off or the descriptor is `AT_FDCWD`; `unlink` always
is.** -/
theorem unlinkat_transparent_iff (k : Kernel W) (notifyOn : Bool) (found : Option (Unlinkat W))
    (dlsym : String → Option (Unlinkat W)) (f : Unlinkat W) (hf : unlinkInit found dlsym = some f) (fd : Int)
    (path : List Char) (flags : Int) (w : W) :
    (UnlinkTransparent f ⟨fd, path, flags⟩ w (unlinkat k notifyOn (unlinkInit found dlsym) fd path flags w) ↔
      notifyOn = false ∨ fd = atFdcwd) ∧
    UnlinkTransparent f ⟨atFdcwd, path, 0⟩ w (unlink k notifyOn (unlinkInit found dlsym) path w) := by
  rw [hf]
  exact ⟨unlinkatOp_transparent_iff .., (unlinkatOp_transparent_iff ..).mpr (Or.inr rfl)⟩

/-- A program whose descriptors are all `AT_FDCWD` sees the same results and leaves the same files with the wrapper and
without it. -/
theorem unlinkat_same_files (k : Kernel W) (notifyOn : Bool) (f : Unlinkat W) {cs : List UnlinkCall}
    (hcs : ∀ c ∈ cs, c.fd = atFdcwd) (s : List Int × W) :
    cs.foldl (wrapped fun c => unlinkat k notifyOn (some f) c.fd c.path c.flags) s = cs.foldl (bare f) s :=
  Transparent.foldl (fun c hc w => ((unlinkatOp_transparent_iff k notifyOn f "unlinkat" c.fd c.path c.flags w).mpr
    (Or.inr (hcs c hc))).call) s

/-! ## A file removed from another directory -/

/-- File names by the descriptor of their directory. -/
abbrev Dirs := List (Int × String)

/-- `unlinkat` on `Dirs`. -/
def dirsUnlinkat : Unlinkat Dirs := fun c w =>
  if (c.fd, String.ofList c.path) ∈ w then (0, w.erase (c.fd, String.ofList c.path)) else (-1, w)

/-- A kernel that names every directory `/data/d` and finds regular files. -/
def dirsKernel : Kernel Dirs :=
  ⟨fun _ _ => some "/data/d".toList, fun _ _ => .mode 0x81a4, fun _ _ => .mode 0x81a4⟩

/-- With `dlsym` finding `unlinkat`, a call on the working directory is transparent. -/
theorem unlinkat_cwd_transparent :
    (UnlinkTransparent dirsUnlinkat ⟨atFdcwd, "x".toList, 0⟩ [(atFdcwd, "x")]
        (unlinkat dirsKernel true (unlinkInit none fun _ => some dirsUnlinkat) atFdcwd "x".toList 0 [(atFdcwd, "x")]) ↔
      true = false ∨ atFdcwd = atFdcwd) ∧
    UnlinkTransparent dirsUnlinkat ⟨atFdcwd, "x".toList, 0⟩ [(atFdcwd, "x")]
      (unlink dirsKernel true (unlinkInit none fun _ => some dirsUnlinkat) "x".toList [(atFdcwd, "x")]) :=
  unlinkat_transparent_iff dirsKernel true none (fun _ => some dirsUnlinkat) dirsUnlinkat rfl atFdcwd "x".toList 0
    [(atFdcwd, "x")]

/-- **Removing `x` from the directory of descriptor 5 removes the `x` of the working directory.** -/
theorem unlinkat_drops_descriptor :
    ¬ UnlinkTransparent dirsUnlinkat ⟨5, "x".toList, 0⟩ [(5, "x"), (atFdcwd, "x")]
      (unlinkat dirsKernel true (some dirsUnlinkat) 5 "x".toList 0 [(5, "x"), (atFdcwd, "x")]) ∧
    (unlinkat dirsKernel true (some dirsUnlinkat) 5 "x".toList 0 [(5, "x"), (atFdcwd, "x")]).world = [(5, "x")] := by
  refine ⟨fun h => ?_, by decide⟩
  have hcall := h.call.once
  exact absurd hcall (by decide)

end Cosmost.Fs
