import Cosmost.Fs.Scope
import Cosmost.Lib.Path

/-!
# Which paths and files are in scope

`PathInScope` says by components what `skip_path` decides by prefixes of the string. The two differ on a directory that
is written with a slash behind, on a doubled slash before the first component or before `asec` and `secure`, and, since
the lengths that are compared with `/mnt/asec` and `/mnt/secure` leave out the slash, on the names that only begin so
(`Misjudged`, `skipPath_iff`).

`notify` tests the file type with the bits of its code, and the codes are not independent: those of a symbolic link and of
a socket contain that of a regular file, and that of a block device contains that of a directory. `decides_iff` says
exactly when the decision is the one by components and types.
-/

namespace Cosmost.Fs

open Cosmost.Lib

/-- The directories whose files are traced. -/
def scopeDirs : List (List Char) := ["system".toList, "sdcard".toList, "mnt".toList, "storage".toList, "data".toList]

/-- The one of them that has excluded directories. -/
def mnt : List Char := "mnt".toList

/-- The directories under `/mnt` whose files are not. -/
def excludedNames : List (List Char) := ["asec".toList, "secure".toList]

/-- The path is strictly inside a traced directory, and in no excluded one. -/
def PathInScope (p : List Char) : Prop :=
  (∃ d ∈ scopeDirs, Beneath [d] p) ∧ ∀ d ∈ excludedNames, ¬ Within [mnt, d] p

instance (p : List Char) : Decidable (PathInScope p) := inferInstanceAs (Decidable (_ ∧ _))

/-- The paths on which `skip_path` and the components differ. -/
inductive Misjudged : List Char → Prop
  /-- The directory itself, with slashes behind. -/
  | bare {d s : List Char} : d ∈ scopeDirs → components s = [] → Misjudged ('/' :: (d ++ '/' :: s))
  /-- A second slash in front. -/
  | doubled {q : List Char} : PathInScope ('/' :: '/' :: q) → Misjudged ('/' :: '/' :: q)
  /-- A second slash before an excluded directory. -/
  | hidden {d q : List Char} : d ∈ excludedNames → (components q).head? = some d → Misjudged ('/' :: (mnt ++ '/' :: '/' :: q))
  /-- A name that begins with that of an excluded directory and goes on. -/
  | longer {d q : List Char} {c : Char} : d ∈ excludedNames → c ≠ '/' → Misjudged ('/' :: (mnt ++ '/' :: (d ++ c :: q)))

/-! ## `skip_path` by the shape of the path -/

theorem startsAs_iff (path : List Char) (lit : String) {n : Nat} (h : n ≤ lit.toList.length) :
    startsAs path lit n = true ↔ lit.toList.take n <+: path := by
  rw [startsAs, beq_iff_eq, List.prefix_iff_eq_take, List.length_take, min_eq_left h, eq_comm]

theorem isName_scopeDir {d : List Char} (h : d ∈ scopeDirs) : IsName d := by
  simp only [scopeDirs, List.mem_cons, List.not_mem_nil, or_false] at h
  rcases h with rfl | rfl | rfl | rfl | rfl <;> exact ⟨by decide, by decide⟩

theorem isName_excluded {d : List Char} (h : d ∈ excludedNames) : IsName d := by
  simp only [excludedNames, List.mem_cons, List.not_mem_nil, or_false] at h
  rcases h with rfl | rfl <;> exact ⟨by decide, by decide⟩

theorem isName_mnt : IsName mnt := ⟨by decide, by decide⟩

theorem mnt_mem : mnt ∈ scopeDirs := by decide

/-- `skip_path` by prefixes: what it lets pass. -/
theorem skipPath_eq_false_iff (p : List Char) : skipPath p = false ↔
    (∃ d ∈ scopeDirs, '/' :: (d ++ ['/']) <+: p) ∧ ∀ d ∈ excludedNames, ¬ "/mnt/".toList ++ d <+: p := by
  have h1 := startsAs_iff p "/mnt/asec/" (n := "/mnt/asec".length) (by decide)
  have h2 := startsAs_iff p "/mnt/secure/" (n := "/mnt/secure".length) (by decide)
  have h3 := startsAs_iff p "/system/" (n := "/system/".length) (by decide)
  have h4 := startsAs_iff p "/sdcard/" (n := "/sdcard/".length) (by decide)
  have h5 := startsAs_iff p "/mnt/" (n := "/mnt/".length) (by decide)
  have h6 := startsAs_iff p "/storage/" (n := "/storage/".length) (by decide)
  have h7 := startsAs_iff p "/data/" (n := "/data/".length) (by decide)
  have hex : (∀ d ∈ excludedNames, ¬ "/mnt/".toList ++ d <+: p) ↔
      startsAs p "/mnt/asec/" "/mnt/asec".length = false ∧ startsAs p "/mnt/secure/" "/mnt/secure".length = false := by
    rw [← Bool.not_eq_true, ← Bool.not_eq_true, h1, h2]
    simp only [excludedNames, List.forall_mem_cons, List.not_mem_nil, false_implies, implies_true, and_true]
    exact Iff.rfl
  have hin : (∃ d ∈ scopeDirs, '/' :: (d ++ ['/']) <+: p) ↔
      startsAs p "/system/" "/system/".length = true ∨ startsAs p "/sdcard/" "/sdcard/".length = true ∨
      startsAs p "/mnt/" "/mnt/".length = true ∨ startsAs p "/storage/" "/storage/".length = true ∨
      startsAs p "/data/" "/data/".length = true := by
    rw [h3, h4, h5, h6, h7]
    simp only [scopeDirs, List.exists_mem_cons_iff, List.not_mem_nil, false_and, exists_false, or_false]
    exact Iff.rfl
  rw [hex, hin, skipPath]
  cases startsAs p "/mnt/asec/" "/mnt/asec".length <;> cases startsAs p "/mnt/secure/" "/mnt/secure".length <;> simp
  cases startsAs p "/system/" "/system/".length <;> cases startsAs p "/sdcard/" "/sdcard/".length <;>
    cases startsAs p "/mnt/" "/mnt/".length <;> cases startsAs p "/storage/" "/storage/".length <;> simp

section Named

variable {n : List Char} (hn : IsName n) (r : List Char)
include hn

/-- A path with a first directory. -/
theorem skipPath_named : skipPath ('/' :: (n ++ '/' :: r)) = false ↔
    n ∈ scopeDirs ∧ ∀ d ∈ excludedNames, ¬ (mnt = n ∧ d <+: r) := by
  have hin : ∀ d ∈ scopeDirs, '/' :: (d ++ ['/']) <+: '/' :: (n ++ '/' :: r) ↔ d = n := by
    intro d hd
    rw [List.cons_prefix_cons, hn.prefix_iff (isName_scopeDir hd)]
    simp
  have hex : ∀ d, "/mnt/".toList ++ d <+: '/' :: (n ++ '/' :: r) ↔ mnt = n ∧ d <+: r := by
    intro d
    rw [show "/mnt/".toList ++ d = '/' :: (mnt ++ '/' :: d) from rfl, List.cons_prefix_cons,
      hn.prefix_iff isName_mnt]
    simp
  rw [skipPath_eq_false_iff]
  simp only [hex]
  refine and_congr_left' ⟨?_, fun h => ⟨n, h, (hin n h).mpr rfl⟩⟩
  rintro ⟨d, hd, hp⟩
  rwa [← (hin d hd).mp hp]

theorem pathInScope_named : PathInScope ('/' :: (n ++ '/' :: r)) ↔
    n ∈ scopeDirs ∧ components r ≠ [] ∧
      ∀ d ∈ excludedNames, ¬ (mnt = n ∧ (components r).head? = some d) := by
  rw [PathInScope]
  simp only [beneath_cons_iff hn, within_cons_iff hn]
  constructor
  · rintro ⟨⟨d, hd, rfl, hr⟩, hex⟩
    exact ⟨hd, hr, hex⟩
  · rintro ⟨hd, hr, hex⟩
    exact ⟨⟨n, hd, rfl, hr⟩, hex⟩

theorem misjudged_named : Misjudged ('/' :: (n ++ '/' :: r)) ↔
    n ∈ scopeDirs ∧ components r = [] ∨
    mnt = n ∧ ∃ d ∈ excludedNames,
      (∃ q, r = '/' :: q ∧ (components q).head? = some d) ∨ ∃ c q, c ≠ '/' ∧ r = d ++ c :: q := by
  constructor
  · intro h
    generalize hp : '/' :: (n ++ '/' :: r) = p at h
    cases h with
    | bare hd hs =>
      obtain ⟨rfl, rfl⟩ := eq_of_append_cons (isName_scopeDir hd).no_slash hn.no_slash (List.cons_injective hp).symm
      exact Or.inl ⟨hd, hs⟩
    | doubled _ => exact absurd (List.cons_injective hp) (hn.append_ne _ _)
    | @hidden d q hd hq =>
      obtain ⟨rfl, hr⟩ := eq_of_append_cons (x := '/' :: q) isName_mnt.no_slash hn.no_slash (List.cons_injective hp).symm
      exact Or.inr ⟨rfl, d, hd, Or.inl ⟨q, hr.symm, hq⟩⟩
    | @longer d q c hd hc =>
      obtain ⟨rfl, hr⟩ := eq_of_append_cons (x := d ++ c :: q) isName_mnt.no_slash hn.no_slash (List.cons_injective hp).symm
      exact Or.inr ⟨rfl, d, hd, Or.inr ⟨c, q, hc, hr.symm⟩⟩
  · rintro (⟨hd, hr⟩ | ⟨rfl, d, hd, ⟨q, rfl, hq⟩ | ⟨c, q, hc, rfl⟩⟩)
    · exact Misjudged.bare hd hr
    · exact Misjudged.hidden hd hq
    · exact Misjudged.longer hd hc

omit hn in
/-- The name of an excluded directory does not go on in that of another. -/
theorem excluded_eq {d e : List Char} (hd : d ∈ excludedNames) (he : e ∈ excludedNames) (h : d <+: e) : d = e := by
  have hall : ∀ d ∈ excludedNames, ∀ e ∈ excludedNames, d <+: e → d = e := by decide
  exact hall d hd e he h

/-- The decision on a path with a first directory. -/
theorem skipPath_named_iff : (skipPath ('/' :: (n ++ '/' :: r)) = false ↔ PathInScope ('/' :: (n ++ '/' :: r))) ↔
    ¬ Misjudged ('/' :: (n ++ '/' :: r)) := by
  rw [skipPath_named hn, pathInScope_named hn, misjudged_named hn]
  by_cases hdir : n ∈ scopeDirs
  swap
  · have hmnt : mnt ≠ n := fun h => hdir (h ▸ mnt_mem)
    simp [hdir, hmnt]
  by_cases hr : components r = []
  · have hex : ∀ d ∈ excludedNames, ¬ (mnt = n ∧ d <+: r) :=
      fun d hd h => (isName_excluded hd).components_ne_nil h.2 hr
    exact iff_of_false (fun h => (h.mp ⟨hdir, hex⟩).2.1 hr) (not_not.mpr (Or.inl ⟨hdir, hr⟩))
  by_cases hmnt : mnt = n
  swap
  · simp [hdir, hr, hmnt]
  simp only [hdir, hmnt, hr, true_and, false_or, and_false, ne_eq, not_false_eq_true]
  constructor
  · rintro heq ⟨d, hd, ⟨q, rfl, hq⟩ | ⟨c, q, hc, rfl⟩⟩
    · -- behind the second slash the excluded directory is not seen
      have hpass : ∀ e ∈ excludedNames, ¬ e <+: '/' :: q :=
        fun e he ⟨s, hs⟩ => (isName_excluded he).append_ne s q hs
      exact heq.mp hpass d hd (by rwa [components_slash])
    · -- the name goes on, and is that of no excluded directory
      refine heq.mpr ?_ d hd (List.prefix_append _ _)
      intro e he hhead
      have hname : IsName (d ++ [c]) :=
        (isName_excluded hd).append (by simpa using Ne.symm hc)
      have hpre : d ++ [c] <+: e := hname.head_append (p := q) (by simpa using hhead)
      have hde := excluded_eq hd he ((List.prefix_append d [c]).trans hpre)
      have hlen := hpre.length_le
      rw [hde, List.length_append, List.length_singleton] at hlen
      omega
  · intro hgood
    constructor
    · intro hpass d hd hhead
      rcases prefix_of_head hhead with h | ⟨q, rfl, hq⟩
      · exact hpass d hd h
      · exact hgood ⟨d, hd, Or.inl ⟨q, rfl, hq⟩⟩
    · intro hspec d hd hpre
      rcases (isName_excluded hd).head_of_begins hpre with h | ⟨c, q, hc, rfl⟩
      · exact hspec d hd h
      · exact hgood ⟨d, hd, Or.inr ⟨c, q, hc, rfl⟩⟩

end Named

/-! ## Every path -/

/-- Without a first directory, `skip_path` skips the path. -/
theorem skipPath_eq_true {p : List Char} (h : ∀ d ∈ scopeDirs, ¬ '/' :: (d ++ ['/']) <+: p) : skipPath p = true := by
  rw [← Bool.not_eq_false, skipPath_eq_false_iff]
  rintro ⟨⟨d, hd, hp⟩, -⟩
  exact h d hd hp

/-- A path of one name is directly beneath the root. -/
theorem not_pathInScope_name {n : List Char} (hn : n = [] ∨ IsName n) : ¬ PathInScope ('/' :: n) := by
  rintro ⟨⟨d, hd, ⟨-, hpre⟩, hne⟩, -⟩
  rw [components_slash] at hpre hne
  rcases hn with rfl | hn
  · simp at hpre
  · rw [hn.components_eq] at hpre hne
    exact hne (hpre.eq_of_length rfl).symm

/-- **`skip_path` lets the paths pass that are in scope by components, except the misjudged ones.** -/
theorem skipPath_iff (p : List Char) : (skipPath p = false ↔ PathInScope p) ↔ ¬ Misjudged p := by
  by_cases habs : p.head? = some '/'
  swap
  · -- a relative path
    have hskip : skipPath p = true := skipPath_eq_true fun d _ hp => habs (by
      obtain ⟨s, rfl⟩ := hp
      rfl)
    have hscope : ¬ PathInScope p := fun ⟨⟨d, _, h⟩, _⟩ => habs h.1.1
    have hmis : ¬ Misjudged p := fun h => by cases h <;> exact habs rfl
    simp [hskip, hscope, hmis]
  obtain ⟨q, rfl⟩ : ∃ q, p = '/' :: q := by
    cases p with
    | nil => simp at habs
    | cons c q =>
      rw [List.head?_cons, Option.some.injEq] at habs
      exact ⟨q, by rw [habs]⟩
  rcases path_cases q with hq | ⟨r, rfl⟩ | hq | ⟨n, r, hn, rfl⟩
  case inr.inr.inr => exact skipPath_named_iff hn r
  case inr.inl =>
    have hskip : skipPath ('/' :: '/' :: r) = true := skipPath_eq_true fun d hd hp => by
      obtain ⟨s, hs⟩ := (List.cons_prefix_cons.mp hp).2
      exact (isName_scopeDir hd).append_ne _ _ (by rwa [List.append_assoc] at hs)
    have hmis : Misjudged ('/' :: '/' :: r) ↔ PathInScope ('/' :: '/' :: r) := by
      refine ⟨fun h => ?_, Misjudged.doubled⟩
      generalize hp : '/' :: '/' :: r = p at h
      cases h with
      | doubled h => exact h
      | bare hd _ => exact absurd (List.cons_injective hp).symm ((isName_scopeDir hd).append_ne _ _)
      | hidden _ _ => exact absurd (List.cons_injective hp).symm (isName_mnt.append_ne _ _)
      | longer _ _ => exact absurd (List.cons_injective hp).symm (isName_mnt.append_ne _ _)
    simp [hskip, hmis]
  all_goals
    have hno : '/' ∉ q := by
      first
        | exact hq.no_slash
        | simp [hq]
    have hskip : skipPath ('/' :: q) = true := skipPath_eq_true fun d _ hp => hno (by
      have hsub := (List.cons_prefix_cons.mp hp).2.subset
      exact hsub (by simp))
    have hscope : ¬ PathInScope ('/' :: q) := not_pathInScope_name (by tauto)
    have hmis : ¬ Misjudged ('/' :: q) := by
      intro h
      generalize hp : '/' :: q = p at h
      cases h <;> exact hno (by rw [List.cons_injective hp]; simp)
    simp [hskip, hscope, hmis]

/-! ## The whole decision -/

/-- The file types that the flags of a wrapper name. -/
def typesNamed (flags : Nat) : List Nat := if flags = sIFREG then [sIFREG] else [sIFREG, sIFDIR]

/-- The stat failed because there is no file or no permission, or found a file of a type that the flags name. -/
def StatInScope (flags : Nat) : StatResult → Prop
  | .error errno => errno = eNOENT ∨ errno = ePERM
  | .mode stMode => stMode &&& sIFMT ∈ typesNamed flags

instance (flags : Nat) (r : StatResult) : Decidable (StatInScope flags r) := by
  cases r <;> simp only [StatInScope] <;> infer_instance

/-- What `notify` asks for. -/
def answer (fd : Int) (fstat lstat : StatResult) : StatResult := if 0 < fd then fstat else lstat

/-- The type is not one that the flags name, but its code shares a bit with theirs. -/
def SharesBit (flags : Nat) : StatResult → Prop
  | .error _ => False
  | .mode stMode => flags &&& (stMode &&& sIFMT) ≠ 0 ∧ stMode &&& sIFMT ∉ typesNamed flags

/-- `notify` decides as the components of the path and the type of the file do. -/
def Decides (fd : Int) (flags : Nat) (p : List Char) (fstat lstat : StatResult) : Prop :=
  notify fd flags p fstat lstat ≠ 0 ↔ PathInScope p ∧ StatInScope flags (answer fd fstat lstat)

section Decision

variable {flags : Nat} (hflags : flags = sIFREG ∨ flags = sIFREG ||| sIFDIR)
include hflags

theorem flags_ne_zero : flags &&& sIFMT ≠ 0 := by
  rcases hflags with rfl | rfl <;> decide

/-- A type that the flags name shares a bit with them. -/
theorem shares_of_named {type : Nat} (h : type ∈ typesNamed flags) : flags &&& type ≠ 0 := by
  rcases hflags with rfl | rfl
  · obtain rfl : type = sIFREG := by simpa [typesNamed] using h
    decide
  · have htype : type = sIFREG ∨ type = sIFDIR := by simpa [typesNamed, sIFREG, sIFDIR] using h
    rcases htype with rfl | rfl <;> decide

/-- `notify` without its intermediate values. -/
theorem notify_ne_zero_iff (fd : Int) (p : List Char) (fstat lstat : StatResult) :
    notify fd flags p fstat lstat ≠ 0 ↔ skipPath p = false ∧
      (StatInScope flags (answer fd fstat lstat) ∨ SharesBit flags (answer fd fstat lstat)) := by
  have hne := flags_ne_zero hflags
  rw [notify, answer]
  cases skipPath p with
  | true => simp
  | false =>
    cases (if 0 < fd then fstat else lstat) with
    | error errno => by_cases h : errno = eNOENT ∨ errno = ePERM <;> simp [StatInScope, SharesBit, h, hne]
    | mode stMode =>
      by_cases hbit : flags &&& (stMode &&& sIFMT) = 0
      · have hnot : stMode &&& sIFMT ∉ typesNamed flags := fun h => shares_of_named hflags h hbit
        simp [StatInScope, SharesBit, hbit, hnot]
      · have htype : stMode &&& sIFMT ≠ 0 := fun h => hbit (by rw [h, Nat.and_zero])
        by_cases hnot : stMode &&& sIFMT ∈ typesNamed flags <;> simp [StatInScope, SharesBit, hbit, hnot, htype]

/-- **`notify` decides by the components of the path and the type of the file, except for a path that `skip_path` misjudges
when the stat is in scope, and for a type that shares a bit with the flags when `skip_path` lets the path pass.** -/
theorem decides_iff (fd : Int) (p : List Char) (fstat lstat : StatResult) :
    Decides fd flags p fstat lstat ↔
      (StatInScope flags (answer fd fstat lstat) → ¬ Misjudged p) ∧
      (SharesBit flags (answer fd fstat lstat) → skipPath p = true) := by
  have hexcl : SharesBit flags (answer fd fstat lstat) → ¬ StatInScope flags (answer fd fstat lstat) := by
    cases answer fd fstat lstat with
    | error errno => exact False.elim
    | mode stMode => exact fun h => h.2
  rw [Decides, notify_ne_zero_iff hflags, ← skipPath_iff, ← Bool.not_eq_false]
  tauto

end Decision

/-- A regular file directly beneath `/data` is in scope. -/
theorem data_file_decides :
    Decides 5 sIFREG "/data/x".toList (.mode 0x81a4) (.mode 0x81a4) ↔
      (StatInScope sIFREG (answer 5 (.mode 0x81a4) (.mode 0x81a4)) → ¬ Misjudged "/data/x".toList) ∧
      (SharesBit sIFREG (answer 5 (.mode 0x81a4) (.mode 0x81a4)) → skipPath "/data/x".toList = true) :=
  decides_iff (Or.inl rfl) 5 "/data/x".toList (.mode 0x81a4) (.mode 0x81a4)

/-- **A regular file in `/mnt/asecret` is taken for one in `/mnt/asec`, and a symbolic link in `/data` for a regular
file.** -/
theorem asecret_and_link_misjudged :
    ¬ Decides (-1) sIFREG "/mnt/asecret/x".toList (.mode 0x81a4) (.mode 0x81a4) ∧
    ¬ Decides (-1) sIFREG "/data/l".toList (.mode 0xa1ff) (.mode 0xa1ff) := by
  have h1 : notify (-1) sIFREG "/mnt/asecret/x".toList (.mode 0x81a4) (.mode 0x81a4) = 0 := by decide
  have h2 : notify (-1) sIFREG "/data/l".toList (.mode 0xa1ff) (.mode 0xa1ff) ≠ 0 := by decide
  constructor
  · exact fun h => h.mpr ⟨by decide, by decide⟩ h1
  · exact fun h => absurd (h.mp h2).2 (by decide)

end Cosmost.Fs
