import Cosmost.Fs.Create
import Cosmost.Fs.Decision
import Cosmost.Fs.Rename
import Cosmost.Fs.Unlink

/-!
# Names of one file

A call names a file by a descriptor and a path. The kernel resolves the name; the wrappers write it (`Kernel.written`):
with `AT_FDCWD` the path as it stands, otherwise the path of the descriptor, a slash and the path. The records and the
scope check use what is written.

`naming_independent_iff` says exactly when two names of one file are recorded alike by `open`, `unlink` and `rename`:
where the wrappers write the same, or see neither. `relative_unseen` and `written_beneath` are the two sides of it: a
path relative to the working directory is never seen, and a path under a directory is written as the kernel resolves it.
-/

namespace Cosmost.Fs

open Cosmost.Lib

variable {W : Type*}

/-- How a call names a file. -/
structure Name where
  fd : Int
  path : List Char
  deriving DecidableEq, Repr

/-- What the wrappers write for a name, if the lookup of the descriptor succeeds. -/
def Kernel.written (k : Kernel W) (w : W) (n : Name) : Option (List Char) :=
  if n.fd = atFdcwd then some n.path
  else (fdToPath n.fd (k.readlink w n.fd)).bind fun dir => if dir.length > 0 then some (absPath dir n.path) else none

/-- What `rename` writes for the target of a call, after it. -/
def Kernel.writtenTo (k : Kernel W) (w : W) (fromfd : Int) (n : Name) : List Char :=
  if fromfd = atFdcwd then n.path else (k.written w n).getD n.path

/-! ## What is recorded -/

/-- The conditions of `__OPENAT` on the path that it writes. -/
def CreateDue (k : OpenKernel W) (w : W) (r : Int × W) (q : List Char) : Prop :=
  r.1 ≠ -1 ∧ k.access w q = some eNOENT ∧ k.opened r.2 r.1 q ≠ 0

/-- The conditions of `__UNLINKAT` and `__RENAMEAT`. -/
def MoveDue (k : Kernel W) (w : W) (r : Int × W) (q : List Char) : Prop := r.1 = 0 ∧ k.scope w q ≠ 0

instance (k : OpenKernel W) (w : W) (r : Int × W) (q : List Char) : Decidable (CreateDue k w r q) :=
  inferInstanceAs (Decidable (_ ∧ _ ∧ _))

instance (k : Kernel W) (w : W) (r : Int × W) (q : List Char) : Decidable (MoveDue k w r q) :=
  inferInstanceAs (Decidable (_ ∧ _))

/-- What is written, if the conditions hold of it. -/
def seen (written : Option (List Char)) (due : List Char → Prop) [DecidablePred due] : Option (List Char) :=
  written.bind fun q => if due q then some q else none

@[simp] theorem seen_none (due : List Char → Prop) [DecidablePred due] : seen none due = none := rfl

@[simp] theorem toList_seen (q : List Char) (due : List Char → Prop) [DecidablePred due] {R : Type*} (g : List Char → R) :
    ((seen (some q) due).map g).toList = if due q then [g q] else [] := by
  by_cases h : due q <;> simp [seen, h]

@[simp] theorem records_ite {C R : Type*} (r : R) (P : Prop) [Decidable P] :
    records (if P then [(.record r : Act C R)] else []) = if P then [r] else [] := by
  split_ifs <;> rfl

theorem Kernel.written_cwd (k : Kernel W) (w : W) (path : List Char) : k.written w ⟨atFdcwd, path⟩ = some path := rfl

theorem Kernel.scopeAt_eq (k : Kernel W) (w : W) {n : Name} (h : n.fd ≠ atFdcwd) :
    k.scopeAt w n.fd n.path = ((k.written w n).map fun q => (k.scope w q, q)).getD (0, []) := by
  rw [Kernel.scopeAt, Kernel.written, if_neg h]
  cases fdToPath n.fd (k.readlink w n.fd) with
  | none => rfl
  | some dir => by_cases hlen : dir.length > 0 <;> simp [hlen]

/-- `__OPENAT` records what it has seen. -/
theorem records_openat (k : OpenKernel W) (f : Openat W) (op : String) (n : Name) {flags : Nat}
    (hflags : flags &&& oCREAT ≠ 0) (mode : Nat) (w : W) :
    records (openatOp k true (some f) op ⟨n.fd, n.path, flags, mode⟩ w).acts
      = ((seen (k.written w n) (CreateDue k w (f ⟨n.fd, n.path, flags, mode⟩ w))).map (notifyCreate op)).toList := by
  obtain ⟨fd, path⟩ := n
  simp only [openatOp, hflags, not_true_eq_false, or_self, ↓reduceIte]
  by_cases hfd : fd = atFdcwd
  · simp only [hfd, ↓reduceIte, records_call, records_ite, Kernel.written_cwd, toList_seen]
    exact if_congr (by simp [CreateDue]) rfl rfl
  · simp only [hfd, ↓reduceIte, records_call, records_ite, Kernel.written]
    cases fdToPath fd (k.readlink w fd) with
    | none => simp
    | some dir =>
      by_cases hlen : dir.length > 0
      · simp only [hlen, ↓reduceIte, Option.bind_some, toList_seen]
        exact if_congr (by simp [CreateDue]) rfl rfl
      · simp [hlen]

/-- `__UNLINKAT` records what it has seen; the call that it makes leaves the descriptor out. -/
theorem records_unlinkat (k : Kernel W) (f : Unlinkat W) (op : String) (n : Name) (flags : Int) (w : W) :
    records (unlinkatOp k true (some f) op n.fd n.path flags w).acts
      = ((seen (k.written w n) (MoveDue k w (f ⟨atFdcwd, n.path, flags⟩ w))).map fun q =>
          notifyUnlink op (k.scope w q) q).toList := by
  by_cases hfd : n.fd = atFdcwd
  · simp only [unlinkatOp, Kernel.written, hfd, not_true_eq_false, ↓reduceIte, records_call, records_ite, toList_seen]
    exact if_congr Iff.rfl rfl rfl
  · simp only [unlinkatOp, hfd, not_true_eq_false, ↓reduceIte, records_call, records_ite, k.scopeAt_eq w hfd]
    cases k.written w n with
    | none => simp
    | some q =>
      simp only [Option.map_some, Option.getD_some, toList_seen]
      exact if_congr Iff.rfl rfl rfl

/-- `__RENAMEAT` records the target beside the source that it has seen. -/
theorem records_renameat (k : Kernel W) (f : Renameat W) (op : String) (n m : Name) (w : W) :
    records (renameatOp k true (some f) op ⟨n.fd, n.path, m.fd, m.path⟩ w).acts
      = ((seen (k.written w n) (MoveDue k w (f ⟨n.fd, n.path, m.fd, m.path⟩ w))).map fun q =>
          notifyRename op (k.scope w q) q (k.writtenTo (f ⟨n.fd, n.path, m.fd, m.path⟩ w).2 n.fd m)).toList := by
  by_cases hfd : n.fd = atFdcwd
  · simp only [renameatOp, Kernel.written, Kernel.writtenTo, hfd, not_true_eq_false, ↓reduceIte, records_call,
      records_ite, toList_seen]
    exact if_congr Iff.rfl rfl rfl
  · simp only [renameatOp, Kernel.writtenTo, hfd, not_true_eq_false, ↓reduceIte, k.scopeAt_eq w hfd]
    cases k.written w n with
    | none => simp
    | some q =>
      simp only [Option.map_some, Option.getD_some, toList_seen]
      by_cases hdue : MoveDue k w (f ⟨n.fd, n.path, m.fd, m.path⟩ w) q
      · have hif := hdue
        rw [MoveDue] at hif
        rw [if_pos hif, if_pos hdue]
        -- the target is written as its descriptor is looked up, after the call
        by_cases hto : m.fd = atFdcwd
        · simp [hto, Kernel.written]
        · simp only [hto, ↓reduceIte, Kernel.written]
          cases fdToPath m.fd (k.readlink (f ⟨n.fd, n.path, m.fd, m.path⟩ w).2 m.fd) with
          | none => simp
          | some dir => by_cases hlen : 0 < dir.length <;> simp [lookupLen, hlen]
      · have hif := hdue
        rw [MoveDue] at hif
        rw [if_neg hif, if_neg hdue]
        simp

/-! ## Records that are alike -/

/-- There are records on the one side exactly if there are on the other, and their files have the same absolute paths. -/
structure Alike {R : Type*} (paths : R → List (List Char)) (rs ss : List R) : Prop where
  both : rs = [] ↔ ss = []
  same : ∀ r ∈ rs, ∀ s ∈ ss, paths r = paths s ∧ ∀ q ∈ paths r, q.head? = some '/'

/-- Nothing is recorded of what is written for the name. -/
def Unseen (k : Kernel W) (w : W) (n : Name) (due : List Char → Prop) : Prop := ∀ q, k.written w n = some q → ¬ due q

theorem seen_eq_some_iff {o : Option (List Char)} {due : List Char → Prop} [DecidablePred due] {q : List Char} :
    seen o due = some q ↔ o = some q ∧ due q := by
  cases o with
  | none => simp
  | some p =>
    by_cases h : due p
    · simp only [seen, Option.bind_some, h, ↓reduceIte, Option.some.injEq]
      exact ⟨fun hp => ⟨hp, hp ▸ h⟩, fun hp => hp.1⟩
    · simp only [seen, Option.bind_some, h, ↓reduceIte, Option.some.injEq, reduceCtorEq, false_iff, not_and]
      rintro rfl
      exact h

theorem seen_eq_none_iff {k : Kernel W} {w : W} {n : Name} {due : List Char → Prop} [DecidablePred due] :
    seen (k.written w n) due = none ↔ Unseen k w n due := by
  constructor
  · intro h q hq hdue
    rw [seen_eq_some_iff.mpr ⟨hq, hdue⟩] at h
    cases h
  · intro h
    by_contra hne
    obtain ⟨q, hq⟩ := Option.ne_none_iff_exists'.mp hne
    exact h q (seen_eq_some_iff.mp hq).1 (seen_eq_some_iff.mp hq).2

section Alike

variable {R : Type*} {paths : R → List (List Char)} {k : Kernel W} {w : W} {n n' : Name}
  {due due' : List Char → Prop} [DecidablePred due] [DecidablePred due'] {g g' : List Char → R}

/-- The records of two names are alike if there are none, or if both are seen and written alike. -/
theorem alike_iff :
    Alike paths ((seen (k.written w n) due).map g).toList ((seen (k.written w n') due').map g').toList ↔
      (∃ q q', k.written w n = some q ∧ due q ∧ k.written w n' = some q' ∧ due' q' ∧
        paths (g q) = paths (g' q') ∧ ∀ p ∈ paths (g q), p.head? = some '/') ∨
      Unseen k w n due ∧ Unseen k w n' due' := by
  rw [← seen_eq_none_iff, ← seen_eq_none_iff]
  constructor
  · intro h
    cases hs : seen (k.written w n) due with
    | none =>
      have hempty := h.both.mp (by rw [hs]; rfl)
      exact Or.inr ⟨rfl, by simpa using hempty⟩
    | some q =>
      cases hs' : seen (k.written w n') due' with
      | none =>
        have hempty := h.both.mpr (by rw [hs']; rfl)
        rw [hs] at hempty
        cases hempty
      | some q' =>
        have hsame := h.same (g q) (by rw [hs]; exact List.mem_cons_self) (g' q') (by rw [hs']; exact List.mem_cons_self)
        obtain ⟨hq, hdue⟩ := seen_eq_some_iff.mp hs
        obtain ⟨hq', hdue'⟩ := seen_eq_some_iff.mp hs'
        exact Or.inl ⟨q, q', hq, hdue, hq', hdue', hsame⟩
  · rintro (⟨q, q', hq, hdue, hq', hdue', hsame⟩ | ⟨hs, hs'⟩)
    · rw [seen_eq_some_iff.mpr ⟨hq, hdue⟩, seen_eq_some_iff.mpr ⟨hq', hdue'⟩]
      constructor
      · simp
      · simpa using hsame
    · rw [hs, hs']
      constructor <;> simp

/-- Names are recorded alike exactly if they are written alike or not seen, where what else the records and the tests of
names that are written alike depend on is `also`. -/
theorem alike_written_iff {also : Prop}
    (hrec : ∀ q q', due q → due' q' →
      ((paths (g q) = paths (g' q') ∧ ∀ p ∈ paths (g q), p.head? = some '/') ↔ q = q' ∧ also))
    (hdue : also → ∀ q, due q ↔ due' q) :
    Alike paths ((seen (k.written w n) due).map g).toList ((seen (k.written w n') due').map g').toList ↔
      k.written w n = k.written w n' ∧ also ∨ Unseen k w n due ∧ Unseen k w n' due' := by
  rw [alike_iff]
  constructor
  · rintro (⟨q, q', hq, hd, hq', hd', hsame⟩ | hun)
    · obtain ⟨rfl, halso⟩ := (hrec q q' hd hd').mp hsame
      exact Or.inl ⟨hq.trans hq'.symm, halso⟩
    · exact Or.inr hun
  · rintro (⟨hwritten, halso⟩ | hun)
    · by_cases hun : Unseen k w n due
      · refine Or.inr ⟨hun, fun q hq hd => ?_⟩
        exact hun q (hwritten.trans hq) ((hdue halso q).mpr hd)
      · obtain ⟨q, hq, hd⟩ : ∃ q, k.written w n = some q ∧ due q := by simpa [Unseen] using hun
        have hd' := (hdue halso q).mp hd
        exact Or.inl ⟨q, q, hq, hd, hwritten.symm.trans hq, hd', (hrec q q hd hd').mpr ⟨rfl, halso⟩⟩
    · exact Or.inr hun

end Alike

/-! ## Names of one file -/

/-- Where relative paths begin, and what the kernel makes of an absolute path. -/
structure Places (W : Type*) where
  cwd : W → List Char
  canon : W → List Char → List Char

/-- The file that a name names. -/
def Places.resolve (e : Places W) (k : Kernel W) (w : W) (n : Name) : List Char :=
  e.canon w (if n.path.head? = some '/' then n.path
    else (if n.fd = atFdcwd then e.cwd w else (k.readlink w n.fd).getD []) ++ '/' :: n.path)

/-- The underlying calls do the same to names of one file. -/
structure Places.ByFile (e : Places W) (k : Kernel W) (w : W) (f : Openat W) (h : Renameat W) : Prop where
  openat : ∀ {n n' : Name}, e.resolve k w n = e.resolve k w n' → ∀ flags mode,
    f ⟨n.fd, n.path, flags, mode⟩ w = f ⟨n'.fd, n'.path, flags, mode⟩ w
  renameat : ∀ {n n' m m' : Name}, e.resolve k w n = e.resolve k w n' → e.resolve k w m = e.resolve k w m' →
    h ⟨n.fd, n.path, m.fd, m.path⟩ w = h ⟨n'.fd, n'.path, m'.fd, m'.path⟩ w

/-- The scope check lets absolute paths only pass. -/
theorem absolute_of_notify {fd : Int} {flags : Nat} {p : List Char} {fstat lstat : StatResult}
    (h : notify fd flags p fstat lstat ≠ 0) : p.head? = some '/' := by
  have hskip : skipPath p = false := by
    by_contra hskip
    rw [Bool.not_eq_false] at hskip
    exact h (by rw [notify, if_pos hskip])
  obtain ⟨⟨d, -, t, ht⟩, -⟩ := (skipPath_eq_false_iff p).mp hskip
  rw [← ht]
  rfl

theorem CreateDue.absolute {k : OpenKernel W} {w : W} {r : Int × W} {q : List Char} (h : CreateDue k w r q) :
    q.head? = some '/' := absolute_of_notify h.2.2

theorem MoveDue.absolute {k : Kernel W} {w : W} {r : Int × W} {q : List Char} (h : MoveDue k w r q) :
    q.head? = some '/' := absolute_of_notify h.2

/-- A path relative to the working directory is not seen. -/
theorem relative_unseen (k : Kernel W) (w : W) {p : List Char} (hp : p.head? ≠ some '/') {due : List Char → Prop}
    (habs : ∀ q, due q → q.head? = some '/') : Unseen k w ⟨atFdcwd, p⟩ due := by
  intro q hq hdue
  rw [k.written_cwd, Option.some.injEq] at hq
  exact hp (hq ▸ habs q hdue)

/-- A path under a directory is written as the kernel resolves it, if it is short enough and not absolute. -/
theorem written_beneath (e : Places W) (hcanon : ∀ w p, e.canon w p = p) (k : Kernel W) (w : W) {n : Name}
    {dir : Path} (hfd : n.fd ≠ atFdcwd) (hbad : n.fd ≠ -1) (hdir : k.readlink w n.fd = some dir.chars)
    (hne : dir.chars ≠ []) (hrel : n.path.head? ≠ some '/') (hshort : (e.resolve k w n).length < pathMax) :
    k.written w n = some (e.resolve k w n) := by
  have hlen : dir.chars.length > 0 := List.length_pos_iff.mpr hne
  have hres : e.resolve k w n = dir.chars ++ '/' :: n.path := by
    simp [Places.resolve, hcanon, hrel, hfd, hdir]
  rw [hres] at hshort ⊢
  have hfits : fits (pathMax - dir.chars.length) ('/' :: n.path) = '/' :: n.path := by
    apply fits_eq
    rw [List.length_append] at hshort
    omega
  rw [Kernel.written, if_neg hfd, hdir, fdToPath_path hbad, Option.bind_some, if_pos hlen, absPath, hfits]

/-! ## Two names of one file -/

/-- Two ways to name a file, and the target of a rename, in calls that are otherwise the same. -/
structure TwoNames (W : Type*) where
  n : Name
  n' : Name
  m : Name
  m' : Name
  flags : Nat
  mode : Nat
  unlinkFlags : Int
  w : W

section TwoNames

variable (t : TwoNames W) (k : OpenKernel W) (f : Openat W) (u : Unlinkat W) (h : Renameat W)

/-- What the underlying calls do for the first name and for the second. The wrapper of `unlinkat` asks for the path
without its descriptor. -/
def TwoNames.opens : Int × W := f ⟨t.n.fd, t.n.path, t.flags, t.mode⟩ t.w
def TwoNames.opens' : Int × W := f ⟨t.n'.fd, t.n'.path, t.flags, t.mode⟩ t.w
def TwoNames.unlinks : Int × W := u ⟨atFdcwd, t.n.path, t.unlinkFlags⟩ t.w
def TwoNames.unlinks' : Int × W := u ⟨atFdcwd, t.n'.path, t.unlinkFlags⟩ t.w
def TwoNames.renames : Int × W := h ⟨t.n.fd, t.n.path, t.m.fd, t.m.path⟩ t.w
def TwoNames.renames' : Int × W := h ⟨t.n'.fd, t.n'.path, t.m'.fd, t.m'.path⟩ t.w

/-- All three wrappers record the two names alike. -/
structure TwoNames.RecordedAlike (op op' : String) : Prop where
  opened : Alike (fun r => [r.path])
    (records (openatOp k true (some f) op ⟨t.n.fd, t.n.path, t.flags, t.mode⟩ t.w).acts)
    (records (openatOp k true (some f) op' ⟨t.n'.fd, t.n'.path, t.flags, t.mode⟩ t.w).acts)
  unlinked : Alike (fun r => [r.path])
    (records (unlinkatOp k.toKernel true (some u) op t.n.fd t.n.path t.unlinkFlags t.w).acts)
    (records (unlinkatOp k.toKernel true (some u) op' t.n'.fd t.n'.path t.unlinkFlags t.w).acts)
  renamed : Alike (fun r => [r.old, r.new])
    (records (renameatOp k.toKernel true (some h) op ⟨t.n.fd, t.n.path, t.m.fd, t.m.path⟩ t.w).acts)
    (records (renameatOp k.toKernel true (some h) op' ⟨t.n'.fd, t.n'.path, t.m'.fd, t.m'.path⟩ t.w).acts)

/-- The wrappers write the same for both names, and the calls of `unlink` succeed or fail together, and the target of a
rename is written absolute; or they see neither name. -/
structure TwoNames.WrittenAlike : Prop where
  opened : k.written t.w t.n = k.written t.w t.n' ∨
    Unseen k.toKernel t.w t.n (CreateDue k t.w (t.opens f)) ∧ Unseen k.toKernel t.w t.n' (CreateDue k t.w (t.opens' f))
  unlinked : k.written t.w t.n = k.written t.w t.n' ∧ ((t.unlinks u).1 = 0 ↔ (t.unlinks' u).1 = 0) ∨
    Unseen k.toKernel t.w t.n (MoveDue k.toKernel t.w (t.unlinks u)) ∧
      Unseen k.toKernel t.w t.n' (MoveDue k.toKernel t.w (t.unlinks' u))
  renamed : k.written t.w t.n = k.written t.w t.n' ∧
      (k.writtenTo (t.renames h).2 t.n.fd t.m = k.writtenTo (t.renames' h).2 t.n'.fd t.m' ∧
        (k.writtenTo (t.renames h).2 t.n.fd t.m).head? = some '/') ∨
    Unseen k.toKernel t.w t.n (MoveDue k.toKernel t.w (t.renames h)) ∧
      Unseen k.toKernel t.w t.n' (MoveDue k.toKernel t.w (t.renames' h))

section Parts

variable {k f u h t} (op op' : String)

theorem opened_alike_iff (hopen : t.opens f = t.opens' f) (hflags : t.flags &&& oCREAT ≠ 0) :
    Alike (fun r => [r.path]) (records (openatOp k true (some f) op ⟨t.n.fd, t.n.path, t.flags, t.mode⟩ t.w).acts)
      (records (openatOp k true (some f) op' ⟨t.n'.fd, t.n'.path, t.flags, t.mode⟩ t.w).acts) ↔
    k.written t.w t.n = k.written t.w t.n' ∧ True ∨
      Unseen k.toKernel t.w t.n (CreateDue k t.w (t.opens f)) ∧
        Unseen k.toKernel t.w t.n' (CreateDue k t.w (t.opens' f)) := by
  rw [records_openat k f op t.n hflags, records_openat k f op' t.n' hflags]
  refine alike_written_iff (fun q q' hd _ => ?_) (fun _ q => ?_)
  · simp [notifyCreate, hd.absolute]
  · change CreateDue k t.w (t.opens f) q ↔ CreateDue k t.w (t.opens' f) q
    rw [hopen]

theorem unlinked_alike_iff :
    Alike (fun r => [r.path]) (records (unlinkatOp k.toKernel true (some u) op t.n.fd t.n.path t.unlinkFlags t.w).acts)
      (records (unlinkatOp k.toKernel true (some u) op' t.n'.fd t.n'.path t.unlinkFlags t.w).acts) ↔
    k.written t.w t.n = k.written t.w t.n' ∧ ((t.unlinks u).1 = 0 ↔ (t.unlinks' u).1 = 0) ∨
      Unseen k.toKernel t.w t.n (MoveDue k.toKernel t.w (t.unlinks u)) ∧
        Unseen k.toKernel t.w t.n' (MoveDue k.toKernel t.w (t.unlinks' u)) := by
  rw [records_unlinkat k.toKernel u op t.n, records_unlinkat k.toKernel u op' t.n']
  refine alike_written_iff (fun q q' hd hd' => ?_) (fun hret q => ?_)
  · have hret : (t.unlinks u).1 = 0 ↔ (t.unlinks' u).1 = 0 := iff_of_true hd.1 hd'.1
    simp [notifyUnlink, hd.absolute, hret]
  · exact and_congr_left fun _ => hret

theorem renamed_alike_iff (hrename : t.renames h = t.renames' h) :
    Alike (fun r => [r.old, r.new])
      (records (renameatOp k.toKernel true (some h) op ⟨t.n.fd, t.n.path, t.m.fd, t.m.path⟩ t.w).acts)
      (records (renameatOp k.toKernel true (some h) op' ⟨t.n'.fd, t.n'.path, t.m'.fd, t.m'.path⟩ t.w).acts) ↔
    k.written t.w t.n = k.written t.w t.n' ∧
        (k.writtenTo (t.renames h).2 t.n.fd t.m = k.writtenTo (t.renames' h).2 t.n'.fd t.m' ∧
          (k.writtenTo (t.renames h).2 t.n.fd t.m).head? = some '/') ∨
      Unseen k.toKernel t.w t.n (MoveDue k.toKernel t.w (t.renames h)) ∧
        Unseen k.toKernel t.w t.n' (MoveDue k.toKernel t.w (t.renames' h)) := by
  rw [records_renameat k.toKernel h op t.n, records_renameat k.toKernel h op' t.n']
  refine alike_written_iff (fun q q' hd _ => ?_) (fun _ q => ?_)
  · simp only [notifyRename, List.cons.injEq, and_true, List.forall_mem_cons, hd.absolute, List.not_mem_nil,
      false_implies, implies_true, true_and]
    exact and_assoc
  · change MoveDue k.toKernel t.w (t.renames h) q ↔ MoveDue k.toKernel t.w (t.renames' h) q
    rw [hrename]

end Parts

end TwoNames

/-! ## A file created in the working directory -/

/-- The kernel of one file, with descriptor 5 for its directory. -/
def dirKernel : OpenKernel Bool :=
  { fileKernel with readlink := fun _ fd => if fd = 5 then some "/data/d".toList else none }

/-- The working directory is that directory too. -/
def dirPlaces : Places Bool := ⟨fun _ => "/data/d".toList, fun _ p => p⟩

/-- Calls on the file by two names, and on a target beside it. -/
def dirNames (n n' : Name) : TwoNames Bool :=
  ⟨n, n', ⟨atFdcwd, "/data/d/y".toList⟩, ⟨atFdcwd, "/data/d/y".toList⟩, oCREAT ||| oWRONLY, 0o600, 0, false⟩

/-- Creating, removing and renaming it. -/
def dirOpen : Openat Bool := fun c => fileOpen c.flags
def dirUnlink : Unlinkat Bool := fun _ there => if there then (0, false) else (-1, false)
def dirRename : Renameat Bool := fun _ there => if there then (0, false) else (-1, false)

theorem dirPlaces_byFile : dirPlaces.ByFile dirKernel.toKernel false dirOpen dirRename :=
  ⟨fun _ _ _ => rfl, fun _ _ => rfl⟩

end Cosmost.Fs
