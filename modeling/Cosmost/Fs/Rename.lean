import Cosmost.Fs.Scope
import Cosmost.Lib.Interpose

/-!
# The wrapper of `rename` and `renameat` (`rename.c`)

The wrapper calls the underlying `renameat` with its caller's arguments in every branch. Its variable `ret` holds the
result of that call, but also the results of the lookups of both descriptors: the lookup of `tofd`, which is made for
the record after a call that succeeded, comes after the call and its result is what the wrapper returns.

`renameat_transparent_iff`: the wrapper is transparent unless the record is made with a target under a directory
descriptor whose lookup does not return `0`; `rename` always is. `renameat_returns_length` shows what happens otherwise.
-/

namespace Cosmost.Fs

open Cosmost.Lib

variable {W : Type*}

/-- The arguments of `renameat`. -/
structure RenameCall where
  fromfd : Int
  «from» : List Char
  tofd : Int
  «to» : List Char
  deriving DecidableEq, Repr

/-- What `notify_rename` logs. -/
structure RenameRecord where
  op : String
  mode : String
  old : List Char
  new : List Char
  deriving DecidableEq, Repr

/-- The type of the underlying call. -/
abbrev Renameat (W : Type*) := RenameCall → W → Int × W

/-- `rename_init`: the call found before, or what `dlsym` finds under either name. -/
def renameInit (found : Option (Renameat W)) (dlsym : String → Option (Renameat W)) : Option (Renameat W) :=
  found <|> dlsym "renameat" <|> dlsym "__renameat"

/-- `notify_rename`. -/
def notifyRename (op : String) (flags : Nat) (old new : List Char) : RenameRecord := ⟨op, mode flags, old, new⟩

/-- The result of `fd_to_path`. -/
def lookupLen : Option (List Char) → Int
  | some path => path.length
  | none => -1

/-- `__RENAMEAT`. -/
def renameatOp (k : Kernel W) (notifyOn : Bool) (renameat : Option (Renameat W)) (op : String) (c : RenameCall) (w : W) :
    Outcome W RenameCall RenameRecord :=
  match renameat with
  | none => ⟨-1, w, []⟩
  | some f =>
    if ¬ notifyOn then ⟨(f c w).1, (f c w).2, [.call c]⟩
    else if c.fromfd = atFdcwd then
      let flag := k.scope w c.from
      let (ret, w') := f ⟨atFdcwd, c.from, c.tofd, c.to⟩ w
      ⟨ret, w', .call ⟨atFdcwd, c.from, c.tofd, c.to⟩ ::
        if ret = 0 ∧ flag ≠ 0 then [.record (notifyRename op flag c.from c.to)] else []⟩
    else
      let (flag, fromAbs) := k.scopeAt w c.fromfd c.from
      let (ret, w') := f c w
      if ret = 0 ∧ flag ≠ 0 then
        if c.tofd = atFdcwd then ⟨ret, w', [.call c, .record (notifyRename op flag fromAbs c.to)]⟩
        else
          -- `ret` is now the length of the target directory's path, or `-1`
          let ret := lookupLen (fdToPath c.tofd (k.readlink w' c.tofd))
          match fdToPath c.tofd (k.readlink w' c.tofd) with
          | some dir =>
            if ret > 0 then ⟨ret, w', [.call c, .record (notifyRename op flag fromAbs (absPath dir c.to))]⟩
            else ⟨ret, w', [.call c, .record (notifyRename op flag fromAbs c.to)]⟩
          | none => ⟨ret, w', [.call c, .record (notifyRename op flag fromAbs c.to)]⟩
      else ⟨ret, w', [.call c]⟩

/-- `renameat`. -/
def renameat (k : Kernel W) (notifyOn : Bool) (f : Option (Renameat W)) (c : RenameCall) :
    W → Outcome W RenameCall RenameRecord := renameatOp k notifyOn f "renameat" c

/-- `rename`. -/
def rename (k : Kernel W) (notifyOn : Bool) (f : Option (Renameat W)) (old new : List Char) :
    W → Outcome W RenameCall RenameRecord := renameatOp k notifyOn f "rename" ⟨atFdcwd, old, atFdcwd, new⟩

/-! ## Transparency -/

/-- The source of the call is in scope: notifications are on, and the scope check of its path, absolute if it stands
under a directory descriptor, finds a file type. -/
def SourceInScope (k : Kernel W) (notifyOn : Bool) (c : RenameCall) (w : W) : Prop :=
  notifyOn = true ∧ (if c.fromfd = atFdcwd then k.scope w c.from else (k.scopeAt w c.fromfd c.from).1) ≠ 0

instance (k : Kernel W) (notifyOn : Bool) (c : RenameCall) (w : W) : Decidable (SourceInScope k notifyOn c w) :=
  inferInstanceAs (Decidable (_ ∧ _))

/-- The wrapper made the caller's call and no other, returns its result and leaves its world; it emitted a record, and
no other, if and only if the call succeeded and the source was in scope. -/
structure RenameTransparent (k : Kernel W) (notifyOn : Bool) (f : Renameat W) (c : RenameCall) (w : W)
    (out : Outcome W RenameCall RenameRecord) : Prop where
  call : Transparent f c w out
  record : (∃ r, records out.acts = [r]) ↔ (f c w).1 = 0 ∧ SourceInScope k notifyOn c w
  atMostOne : (records out.acts).length ≤ 1

/-- The lookup of the target's descriptor overwrites the result of a call that succeeded. -/
def Overwrites (k : Kernel W) (notifyOn : Bool) (f : Renameat W) (c : RenameCall) (w : W) : Prop :=
  c.fromfd ≠ atFdcwd ∧ c.tofd ≠ atFdcwd ∧ (f c w).1 = 0 ∧ SourceInScope k notifyOn c w ∧
    lookupLen (fdToPath c.tofd (k.readlink (f c w).2 c.tofd)) ≠ 0

instance (k : Kernel W) (notifyOn : Bool) (f : Renameat W) (c : RenameCall) (w : W) :
    Decidable (Overwrites k notifyOn f c w) := inferInstanceAs (Decidable (_ ∧ _ ∧ _ ∧ _ ∧ _))

/-- What the wrapper does: the call, a record if it is due, and the result of the lookup in place of that of the call
where `Overwrites` holds. -/
theorem renameatOp_eq (k : Kernel W) (notifyOn : Bool) (f : Renameat W) (op : String) (c : RenameCall) (w : W) :
    ∃ r : RenameRecord, renameatOp k notifyOn (some f) op c w =
      ⟨if Overwrites k notifyOn f c w then lookupLen (fdToPath c.tofd (k.readlink (f c w).2 c.tofd)) else (f c w).1,
        (f c w).2,
        .call c :: if (f c w).1 = 0 ∧ SourceInScope k notifyOn c w then [.record r] else []⟩ := by
  cases notifyOn with
  | false => exact ⟨⟨"", "", [], []⟩, by simp [renameatOp, Overwrites, SourceInScope]⟩
  | true =>
    by_cases hfd : c.fromfd = atFdcwd
    · have hc : (⟨atFdcwd, c.from, c.tofd, c.to⟩ : RenameCall) = c := by rw [← hfd]
      refine ⟨notifyRename op (k.scope w c.from) c.from c.to, ?_⟩
      simp only [renameatOp, hfd, hc, not_true_eq_false, ↓reduceIte]
      simp [Overwrites, SourceInScope, hfd]
    · have hdue : ((f c w).1 = 0 ∧ (k.scopeAt w c.fromfd c.from).1 ≠ 0) ↔
          (f c w).1 = 0 ∧ SourceInScope k true c w := by simp [SourceInScope, hfd]
      simp only [renameatOp, hfd, hdue, not_true_eq_false, ↓reduceIte]
      by_cases hrec : (f c w).1 = 0 ∧ SourceInScope k true c w
      · simp only [hrec, and_self, ↓reduceIte]
        by_cases hto : c.tofd = atFdcwd
        · exact ⟨notifyRename op (k.scopeAt w c.fromfd c.from).1 (k.scopeAt w c.fromfd c.from).2 c.to,
            by simp [Overwrites, hto]⟩
        · -- the lookup of `tofd`: a result of `0` is the result of the call as well
          have hret : (if Overwrites k true f c w then lookupLen (fdToPath c.tofd (k.readlink (f c w).2 c.tofd)) else 0)
              = lookupLen (fdToPath c.tofd (k.readlink (f c w).2 c.tofd)) := by
            by_cases hz : lookupLen (fdToPath c.tofd (k.readlink (f c w).2 c.tofd)) = 0
            · rw [hz, ite_self]
            · rw [if_pos ⟨hfd, hto, hrec.1, hrec.2, hz⟩]
          simp only [hto, ↓reduceIte, hret]
          split
          · split_ifs <;> exact ⟨_, rfl⟩
          · exact ⟨_, rfl⟩
      · have hover : ¬ Overwrites k true f c w := fun h => hrec ⟨h.2.2.1, h.2.2.2.1⟩
        exact ⟨⟨"", "", [], []⟩, by simp [hrec, hover]⟩

/-- The wrapper is transparent unless the lookup of the target overwrites the result. -/
theorem renameatOp_transparent_iff (k : Kernel W) (notifyOn : Bool) (f : Renameat W) (op : String) (c : RenameCall)
    (w : W) :
    RenameTransparent k notifyOn f c w (renameatOp k notifyOn (some f) op c w) ↔ ¬ Overwrites k notifyOn f c w := by
  obtain ⟨r, heq⟩ := renameatOp_eq k notifyOn f op c w
  rw [heq]
  constructor
  · intro h hover
    have hret := h.call.ret
    simp only [hover, ↓reduceIte] at hret
    exact hover.2.2.2.2 (hret.trans hover.2.2.1)
  · intro hover
    refine ⟨⟨?_, by simp [hover], rfl⟩, ?_, ?_⟩
    all_goals
      by_cases hrec : (f c w).1 = 0 ∧ SourceInScope k notifyOn c w
      · simp [hrec]
      · simp [hrec]

/-- **`renameat` is transparent unless a record is due, both descriptors are directories and the lookup of the target
does not return `0`; `rename` always is.** -/
theorem renameat_transparent_iff (k : Kernel W) (notifyOn : Bool) (found : Option (Renameat W))
    (dlsym : String → Option (Renameat W)) (f : Renameat W) (hf : renameInit found dlsym = some f) (c : RenameCall)
    (w : W) (old new : List Char) :
    (RenameTransparent k notifyOn f c w (renameat k notifyOn (renameInit found dlsym) c w) ↔
      ¬ Overwrites k notifyOn f c w) ∧
    RenameTransparent k notifyOn f ⟨atFdcwd, old, atFdcwd, new⟩ w
      (rename k notifyOn (renameInit found dlsym) old new w) := by
  rw [hf]
  exact ⟨renameatOp_transparent_iff .., (renameatOp_transparent_iff ..).mpr fun h => h.1 rfl⟩

/-! ## A rename that seems to fail -/

/-- A kernel on no state at all that names every directory `/data/d` and finds regular files. -/
def quietKernel : Kernel Unit :=
  ⟨fun _ _ => some "/data/d".toList, fun _ _ => .mode 0x81a4, fun _ _ => .mode 0x81a4⟩

/-- A `renameat` that succeeds. -/
def quietRenameat : Renameat Unit := fun _ w => (0, w)

/-- A rename into the working directory is transparent. -/
theorem renameat_cwd_transparent :
    (RenameTransparent quietKernel true quietRenameat ⟨5, "x".toList, atFdcwd, "y".toList⟩ ()
        (renameat quietKernel true (renameInit none fun _ => some quietRenameat) ⟨5, "x".toList, atFdcwd, "y".toList⟩ ())
      ↔ ¬ Overwrites quietKernel true quietRenameat ⟨5, "x".toList, atFdcwd, "y".toList⟩ ()) ∧
    RenameTransparent quietKernel true quietRenameat ⟨atFdcwd, "x".toList, atFdcwd, "y".toList⟩ ()
      (rename quietKernel true (renameInit none fun _ => some quietRenameat) "x".toList "y".toList ()) :=
  renameat_transparent_iff quietKernel true none (fun _ => some quietRenameat) quietRenameat rfl
    ⟨5, "x".toList, atFdcwd, "y".toList⟩ () "x".toList "y".toList

/-- **A rename from one directory descriptor to another that succeeds returns 7, the length of `/data/d`.** -/
theorem renameat_returns_length :
    ¬ RenameTransparent quietKernel true quietRenameat ⟨5, "x".toList, 6, "y".toList⟩ ()
      (renameat quietKernel true (some quietRenameat) ⟨5, "x".toList, 6, "y".toList⟩ ()) ∧
    (renameat quietKernel true (some quietRenameat) ⟨5, "x".toList, 6, "y".toList⟩ ()).ret = 7 := by
  refine ⟨fun h => ?_, by decide⟩
  have hret := h.call.ret
  exact absurd hret (by decide)

end Cosmost.Fs
