import Cosmost.ProcessName
import Cosmost.Lib.Owners
import Cosmost.Lib.Run
import Mathlib.Data.Finset.Basic

/-!
# The name of a process, asked for by several threads (`process.c`)

`process_name` publishes a buffer with a compare-and-swap on a word of a pointer and a pid, and frees the buffer that it
replaces. Buffers are a set of live addresses, to which `malloc` adds and from which `free` removes; an address that was
freed can be handed out again.

`names_stay_valid`: in every run whose steps replace no name of the process's own pid, no buffer is freed twice, no
comparison reads a freed buffer, and no name that was returned is freed. While no name that is read is `zygote` all steps
are such (`names_other_than_zygote`). `zygote_freed` is a name of the process that is replaced.
-/

namespace Cosmost.ProcessName

open Cosmost.Lib

/-- `procname_pid`: the pointer in its upper half, the pid in its lower. -/
structure Word where
  ptr : Nat
  pid : Nat
  deriving DecidableEq, Repr

/-- Where a thread stands in `process_name`. -/
inductive Pc
  /-- Outside. -/
  | idle
  /-- Before the load of the word; `procname` is null. -/
  | load
  /-- Before the test of the pid and the comparison. -/
  | compare (old : Word)
  /-- Before `read_process_name`. -/
  | read (old : Word)
  /-- Before the compare-and-swap. -/
  | cas (procname : Nat) (old : Word)
  /-- It succeeded: before the free of the old name. -/
  | release (procname : Nat) (old : Word)
  /-- It failed: before the free of the name that was read. -/
  | discard (procname : Nat)
  /-- Before the return of a name. -/
  | ret (name : Nat)
  deriving DecidableEq, Repr

/-- What must not happen to a buffer. -/
inductive Fault
  /-- It is freed, but not live. -/
  | freedTwice (a : Nat)
  /-- It is compared, but not live. -/
  | comparedFreed (a : Nat)
  /-- It is freed, but was returned to a caller. -/
  | handedFreed (a : Nat)
  /-- It is returned to a caller, but not live. -/
  | freedHanded (a : Nat)
  deriving DecidableEq, Repr

/-- The process. The last two fields are not part of it: the names that were returned, and what went wrong. -/
structure Conf (τ : Type*) where
  word : Word
  live : Finset Nat
  name : Nat → List Char
  pc : τ → Pc
  handed : Finset Nat
  faults : List Fault

/-- A step of a thread: the call of `read_process_name`, which returns an address and leaves a name there, or any other. -/
inductive Move
  | run
  | read (a : Nat) (name : List Char)
  deriving DecidableEq

section Step

variable {τ : Type*} [DecidableEq τ]

/-- A thread goes to another point. -/
def Conf.goto (c : Conf τ) (t : τ) (q : Pc) : Conf τ := { c with pc := Function.update c.pc t q }

/-- It is put on record if something is not as it must be. -/
def Conf.unless (c : Conf τ) (ok : Prop) [Decidable ok] (f : Fault) : Conf τ :=
  if ok then c else { c with faults := c.faults ++ [f] }

/-- `free`. -/
def Conf.free (c : Conf τ) (a : Nat) : Conf τ :=
  let c' := (c.unless (a ∈ c.live) (.freedTwice a)).unless (a ∉ c.handed) (.handedFreed a)
  { c' with live := c'.live.erase a }

/-- The next step of the thread `t` in a process of a pid. Addresses have 32 bits. -/
def Conf.step (pid : Nat) (c : Conf τ) : τ × Move → Option (Conf τ)
  | (t, .run) =>
    match c.pc t with
    | .idle => some (c.goto t .load)
    | .load => some (c.goto t (.compare c.word))
    | .compare old =>
      if old.pid = pid then
        let c' := c.unless (old.ptr ∈ c.live) (.comparedFreed old.ptr)
        if c.name old.ptr ≠ "zygote".toList then some (c'.goto t (.ret old.ptr)) else some (c'.goto t (.read old))
      else some (c.goto t (.read old))
    | .read _ => none
    | .cas procname old =>
      if c.word = old then some ({ c with word := ⟨procname, pid⟩ }.goto t (.release procname old))
      else some (c.goto t (.discard procname))
    | .release procname old =>
      if old.ptr ≠ 0 then some ((c.free old.ptr).goto t (.ret procname)) else some (c.goto t (.ret procname))
    | .discard procname => some ((c.free procname).goto t .load)
    | .ret name =>
      let c' := c.unless (name ∈ c.live) (.freedHanded name)
      some ({ c' with handed := insert name c'.handed }.goto t .idle)
  | (t, .read a name) =>
    match c.pc t with
    | .read old =>
      if a ≠ 0 ∧ a < 2 ^ 32 ∧ a ∉ c.live then
        some ({ c with live := insert a c.live, name := Function.update c.name a name }.goto t (.cas a old))
      else none
    | _ => none

/-- No thread is in `process_name`, which has returned nothing; the word is the initial `0` or one from before a fork,
with a buffer that is still there. -/
structure Conf.Started (pid : Nat) (c : Conf τ) : Prop where
  idle : ∀ t, c.pc t = .idle
  handed : c.handed = ∅
  faults : c.faults = []
  zero : 0 ∉ c.live
  word : c.word = ⟨0, 0⟩ ∨ c.word.ptr ∈ c.live
  named : 0 < pid

/-- The step replaces no name that was published for the pid of the process. -/
def Conf.Replaces (pid : Nat) (c : Conf τ) (e : τ × Move) : Prop :=
  ∃ procname old, c.pc e.1 = .cas procname old ∧ c.word = old ∧ old.pid = pid

instance (pid : Nat) (c : Conf τ) (e : τ × Move) : Decidable (c.Replaces pid e) :=
  match h : c.pc e.1 with
  | .cas procname old =>
    decidable_of_iff (c.word = old ∧ old.pid = pid)
      ⟨fun hr => ⟨procname, old, h, hr⟩, fun ⟨_, _, hpc, hr⟩ => by
        rw [h] at hpc; cases hpc; exact hr⟩
  | .idle | .load | .compare _ | .read _ | .release _ _ | .discard _ | .ret _ =>
    isFalse fun ⟨_, _, hpc, _⟩ => by rw [h] at hpc; cases hpc

end Step

/-! ## Who has a buffer -/

/-- The buffer that the thread, and nobody else, has. -/
def Pc.own : Pc → Option Nat
  | .cas procname _ => some procname
  | .discard procname => some procname
  | .release _ old => if old.ptr ≠ 0 then some old.ptr else none
  | _ => none

/-- The word that the thread has loaded. -/
def Pc.seen : Pc → Option Word
  | .compare old | .read old | .cas _ old => some old
  | _ => none

/-- The name that the thread is about to return. -/
def Pc.kept : Pc → Option Nat
  | .release procname _ => some procname
  | .ret name => some name
  | _ => none

/-- The buffer of the word is live, each other buffer that is in use has one owner, and what has been loaded, kept or
returned for the pid of the process is what the word has. -/
structure Conf.Inv {τ : Type*} (pid : Nat) (c : Conf τ) : Prop where
  faults : c.faults = []
  named : 0 < pid
  zero : 0 ∉ c.live
  word : c.word = ⟨0, 0⟩ ∨ c.word.ptr ∈ c.live
  own : ∀ t a, (c.pc t).own = some a → a ∈ c.live ∧ a ≠ c.word.ptr
  apart : ∀ t t' a, (c.pc t).own = some a → (c.pc t').own = some a → t = t'
  seen : ∀ t old, (c.pc t).seen = some old → old.pid = pid → c.word = old
  kept : ∀ t a, (c.pc t).kept = some a → c.word = ⟨a, pid⟩
  handed : ∀ a ∈ c.handed, c.word = ⟨a, pid⟩

section Inv

variable {τ : Type*} {pid : Nat} {c c' : Conf τ} {t : τ} {q : Pc}

theorem Conf.Started.inv (h : c.Started pid) : c.Inv pid where
  faults := h.faults
  named := h.named
  zero := h.zero
  word := h.word
  own := fun t a ha => by rw [h.idle t] at ha; cases ha
  apart := fun t t' a ha => by rw [h.idle t] at ha; cases ha
  seen := fun t a ha => by rw [h.idle t] at ha; cases ha
  kept := fun t a ha => by rw [h.idle t] at ha; cases ha
  handed := fun a ha => by rw [h.handed] at ha; exact absurd ha (Finset.notMem_empty a)

/-- A word with the pid of the process has a live buffer. -/
theorem Conf.Inv.live_of_pid (h : c.Inv pid) (hpid : c.word.pid = pid) : c.word.ptr ∈ c.live := by
  refine h.word.resolve_left fun h0 => ?_
  have hpos := h.named
  rw [h0] at hpid
  simp only at hpid
  omega

/-- A buffer that the thread has can be freed. -/
theorem Conf.Inv.free_eq (h : c.Inv pid) {a : Nat} (ha : (c.pc t).own = some a) :
    c.free a = { c with live := c.live.erase a } := by
  obtain ⟨hlive, hne⟩ := h.own t a ha
  have hhanded : a ∉ c.handed := fun hh => hne (by rw [h.handed a hh])
  simp [Conf.free, Conf.unless, hlive, hhanded]

variable [DecidableEq τ]

/-- A step that leaves the word: what the thread has is what it had, or new, and it may have freed what it had. -/
theorem Conf.Inv.still (h : c.Inv pid) (hword : c'.word = c.word) (hpc : c'.pc = Function.update c.pc t q)
    (hfaults : c'.faults = []) (hzero : 0 ∉ c'.live)
    (hlive : ∀ a ∈ c.live, a ∈ c'.live ∨ (c.pc t).own = some a ∧ q.own ≠ some a)
    (hown : ∀ a, q.own = some a → a ∈ c'.live ∧ ((c.pc t).own = some a ∨ a ∉ c.live))
    (hseen : ∀ old, q.seen = some old → old.pid = pid → c.word = old)
    (hkept : ∀ a, q.kept = some a → c.word = ⟨a, pid⟩) (hhanded : ∀ a ∈ c'.handed, c.word = ⟨a, pid⟩) :
    c'.Inv pid where
  faults := hfaults
  named := h.named
  zero := hzero
  word := by
    rw [hword]
    rcases h.word with h0 | hw
    · exact Or.inl h0
    · rcases hlive _ hw with hw' | ⟨ho, -⟩
      · exact Or.inr hw'
      · exact absurd rfl (h.own t _ ho).2
  own := fun u a ha => by
    rw [hword]
    rw [hpc] at ha
    by_cases hu : u = t
    · subst hu
      rw [Function.update_self] at ha
      obtain ⟨hl, ho | hnew⟩ := hown a ha
      · exact ⟨hl, (h.own u a ho).2⟩
      · refine ⟨hl, fun heq => ?_⟩
        rcases h.word with h0 | hw
        · rw [heq, h0] at hl
          exact hzero hl
        · exact hnew (heq ▸ hw)
    · rw [Function.update_of_ne hu] at ha
      obtain ⟨hl, hne⟩ := h.own u a ha
      rcases hlive a hl with hl' | ⟨ho, -⟩
      · exact ⟨hl', hne⟩
      · exact absurd (h.apart u t a ha ho) hu
  apart := by
    have hsole : Sole Pc.own c.pc := h.apart
    rw [hpc]
    refine hsole.update fun a hq u hu hua => ?_
    rcases (hown a hq).2 with ho | hnew
    · exact hu (h.apart u t a hua ho)
    · exact hnew (h.own u a hua).1
  seen := fun u old ho => by
    rw [hword]
    rw [hpc] at ho
    by_cases hu : u = t
    · rw [hu, Function.update_self] at ho
      exact hseen old ho
    · rw [Function.update_of_ne hu] at ho
      exact h.seen u old ho
  kept := fun u a ha => by
    rw [hword]
    rw [hpc] at ha
    by_cases hu : u = t
    · rw [hu, Function.update_self] at ha
      exact hkept a ha
    · rw [Function.update_of_ne hu] at ha
      exact h.kept u a ha
  handed := fun a ha => by
    rw [hword]
    exact hhanded a ha

/-- A thread goes on and nothing else happens. -/
theorem Conf.Inv.goto (h : c.Inv pid) (hown : ∀ a, q.own = some a → (c.pc t).own = some a)
    (hseen : ∀ old, q.seen = some old → old.pid = pid → c.word = old)
    (hkept : ∀ a, q.kept = some a → c.word = ⟨a, pid⟩) : (c.goto t q).Inv pid :=
  h.still rfl rfl h.faults h.zero (fun _ ha => Or.inl ha)
    (fun a ha => ⟨(h.own t a (hown a ha)).1, Or.inl (hown a ha)⟩) hseen hkept h.handed

/-- The compare-and-swap: the buffer of the thread becomes that of the word, and the other way round. -/
theorem Conf.Inv.publish (h : c.Inv pid) {procname : Nat} {old : Word} (hpc : c.pc t = .cas procname old)
    (hword : c.word = old) (hpid : old.pid ≠ pid) :
    ({ c with word := ⟨procname, pid⟩ }.goto t (.release procname old)).Inv pid := by
  have hmine : (c.pc t).own = some procname := by rw [hpc]; rfl
  obtain ⟨hlive, hne⟩ := h.own t procname hmine
  -- nobody has anything of this pid yet
  have hnone : ∀ a, c.word ≠ ⟨a, pid⟩ := fun a ha => hpid (by rw [← hword, ha])
  have hold : ∀ a, (Pc.release procname old).own = some a → a ∈ c.live ∧ a = c.word.ptr := fun a ha => by
    simp only [Pc.own, ne_eq, ite_not, Option.ite_none_left_eq_some, Option.some.injEq] at ha
    obtain ⟨hzero, rfl⟩ := ha
    rw [← hword] at hzero ⊢
    refine ⟨h.word.resolve_left fun h0 => hzero ?_, rfl⟩
    rw [h0]
  constructor
  case faults => exact h.faults
  case named => exact h.named
  case zero => exact h.zero
  case word => exact Or.inr hlive
  case own =>
    intro u a ha
    by_cases hu : u = t
    · subst hu
      obtain ⟨hl, rfl⟩ := hold a (by simpa [Conf.goto] using ha)
      exact ⟨hl, hne.symm⟩
    · have ha' : (c.pc u).own = some a := by simpa [Conf.goto, hu] using ha
      refine ⟨(h.own u a ha').1, ?_⟩
      rintro rfl
      exact hu (h.apart u t _ ha' hmine)
  case apart =>
    have hsole : Sole Pc.own c.pc := h.apart
    exact hsole.update fun a hq u _ hua => (h.own u a hua).2 (hold a hq).2
  case seen =>
    intro u w hw hwpid
    by_cases hu : u = t
    · simp [Conf.goto, hu, Pc.seen] at hw
    · have hsame := h.seen u w (by simpa [Conf.goto, hu] using hw) hwpid
      exact absurd (by rw [hsame, ← hwpid]) (hnone w.ptr)
  case kept =>
    intro u a ha
    by_cases hu : u = t
    · have hproc : procname = a := by simpa [Conf.goto, hu, Pc.kept] using ha
      rw [hproc]
      rfl
    · exact absurd (h.kept u a (by simpa [Conf.goto, hu] using ha)) (hnone a)
  case handed => exact fun a ha => absurd (h.handed a ha) (hnone a)

/-- It frees that buffer and goes on. -/
theorem Conf.Inv.free (h : c.Inv pid) {a : Nat} (ha : (c.pc t).own = some a) (hown : q.own = none)
    (hseen : q.seen = none) (hkept : ∀ b, q.kept = some b → c.word = ⟨b, pid⟩) : ((c.free a).goto t q).Inv pid := by
  rw [h.free_eq ha]
  refine h.still rfl rfl h.faults (fun h0 => h.zero (Finset.mem_of_mem_erase h0)) (fun b hb => ?_)
    (fun b hb => ?_) (fun old ho => ?_) hkept h.handed
  · by_cases hba : b = a
    · exact Or.inr ⟨hba ▸ ha, by rw [hown]; simp⟩
    · exact Or.inl (Finset.mem_erase.mpr ⟨hba, hb⟩)
  · rw [hown] at hb
    cases hb
  · rw [hseen] at ho
    cases ho

/-- **One step keeps the invariant**, if it replaces no name of this pid. -/
theorem Conf.Inv.step (h : c.Inv pid) {e : τ × Move} (hr : ¬ c.Replaces pid e) (hs : c.step pid e = some c') :
    c'.Inv pid := by
  obtain ⟨t, move⟩ := e
  cases move with
  | run =>
    cases hpc : c.pc t with
    | idle =>
      simp only [Conf.step, hpc, Option.some.injEq] at hs
      subst hs
      exact h.goto (by simp [Pc.own]) (by simp [Pc.seen]) (by simp [Pc.kept])
    | load =>
      simp only [Conf.step, hpc, Option.some.injEq] at hs
      subst hs
      refine h.goto (by simp [Pc.own]) (fun old ho _ => ?_) (by simp [Pc.kept])
      simpa [Pc.seen] using ho
    | compare old =>
      have hseen : old.pid = pid → c.word = old := h.seen t old (by rw [hpc]; rfl)
      simp only [Conf.step, hpc] at hs
      split_ifs at hs with hpid hname
      · -- the name is kept
        have hword := hseen hpid
        have hlive : old.ptr ∈ c.live := hword ▸ h.live_of_pid (by rw [hword, hpid])
        simp only [Conf.unless, hlive, ↓reduceIte, Option.some.injEq] at hs
        subst hs
        refine h.goto (by simp [Pc.own]) (by simp [Pc.seen]) (fun a ha => ?_)
        obtain rfl : old.ptr = a := by simpa [Pc.kept] using ha
        rw [hword, ← hpid]
      · have hword := hseen hpid
        have hlive : old.ptr ∈ c.live := hword ▸ h.live_of_pid (by rw [hword, hpid])
        simp only [Conf.unless, hlive, ↓reduceIte, Option.some.injEq] at hs
        subst hs
        refine h.goto (by simp [Pc.own]) (fun w hw _ => ?_) (by simp [Pc.kept])
        obtain rfl : old = w := by simpa [Pc.seen] using hw
        exact hword
      · obtain rfl := Option.some.inj hs
        refine h.goto (by simp [Pc.own]) (fun w hw hwpid => ?_) (by simp [Pc.kept])
        obtain rfl : old = w := by simpa [Pc.seen] using hw
        exact hseen hwpid
    | read old => simp [Conf.step, hpc] at hs
    | cas procname old =>
      simp only [Conf.step, hpc] at hs
      split_ifs at hs with hword
      · obtain rfl := Option.some.inj hs
        exact h.publish hpc hword fun hpid => hr ⟨procname, old, hpc, hword, hpid⟩
      · obtain rfl := Option.some.inj hs
        exact h.goto (fun a ha => by rw [hpc]; exact ha) (by simp [Pc.seen]) (by simp [Pc.kept])
    | release procname old =>
      have hkept : ∀ b, (Pc.ret procname).kept = some b → c.word = ⟨b, pid⟩ := fun b hb =>
        h.kept t b (by rw [hpc]; exact hb)
      simp only [Conf.step, hpc] at hs
      split_ifs at hs with hold
      · obtain rfl := Option.some.inj hs
        exact h.free (by rw [hpc, Pc.own, if_pos hold]) rfl rfl hkept
      · obtain rfl := Option.some.inj hs
        exact h.goto (by simp [Pc.own]) (by simp [Pc.seen]) hkept
    | discard procname =>
      simp only [Conf.step, hpc, Option.some.injEq] at hs
      subst hs
      exact h.free (by rw [hpc]; rfl) rfl rfl (by simp [Pc.kept])
    | ret name =>
      have hword : c.word = ⟨name, pid⟩ := h.kept t name (by rw [hpc]; rfl)
      have hlive : name ∈ c.live := by simpa [hword] using h.live_of_pid (by rw [hword])
      simp only [Conf.step, hpc, Conf.unless, hlive, ↓reduceIte, Option.some.injEq] at hs
      subst hs
      refine h.still rfl rfl h.faults h.zero (fun _ ha => Or.inl ha) (by simp [Pc.own]) (by simp [Pc.seen])
        (by simp [Pc.kept]) (fun a ha => ?_)
      rcases Finset.mem_insert.mp ha with rfl | ha
      · exact hword
      · exact h.handed a ha
  | read a name =>
    cases hpc : c.pc t with
    | read old =>
      simp only [Conf.step, hpc] at hs
      split_ifs at hs with ha
      obtain rfl := Option.some.inj hs
      refine h.still rfl rfl h.faults (fun h0 => ?_) (fun _ hb => Or.inl (Finset.mem_insert_of_mem hb)) (fun b hb => ?_)
        (fun w hw hwpid => ?_) (by simp [Pc.kept]) h.handed
      · rcases Finset.mem_insert.mp h0 with h0 | h0
        · exact ha.1 h0.symm
        · exact h.zero h0
      · obtain rfl : a = b := by simpa [Pc.own] using hb
        exact ⟨Finset.mem_insert_self a _, Or.inr ha.2.2⟩
      · obtain rfl : old = w := by simpa [Pc.seen] using hw
        exact h.seen t old (by rw [hpc]; rfl) hwpid
    | _ => simp [Conf.step, hpc] at hs

/-- **Names stay valid**: in every run whose steps replace no name of the process's pid, nothing goes wrong. -/
theorem names_stay_valid (h : Reach (Conf.step pid) (fun c e => ¬ c.Replaces pid e) (Conf.Started pid) c) :
    c.faults = [] :=
  (Reach.inv (fun _ hc => hc.inv) (fun _ _ _ hc hr hs => hc.step hr hs) h : c.Inv pid).faults

/-! ## A process that is never called `zygote` -/

/-- The word that the thread is going to replace. -/
def Pc.replaces : Pc → Option Word
  | .read old | .cas _ old => some old
  | _ => none

/-- No name of the process is `zygote`, so no thread is going to replace one. -/
structure Conf.Calm (pid : Nat) (c : Conf τ) : Prop where
  word : c.word.pid = pid → c.name c.word.ptr ≠ "zygote".toList
  replaces : ∀ t old, (c.pc t).replaces = some old → old.pid ≠ pid
  fresh : ∀ t a old, c.pc t = .cas a old → c.name a ≠ "zygote".toList

/-- The move reads another name. -/
def Move.OtherThanZygote : Move → Prop
  | .run => True
  | .read _ name => name ≠ "zygote".toList

omit [DecidableEq τ] in
theorem Conf.Calm.not_replaces (h : c.Calm pid) (e : τ × Move) : ¬ c.Replaces pid e := by
  rintro ⟨procname, old, hpc, -, hpid⟩
  exact h.replaces e.1 old (by rw [hpc]; rfl) hpid

/-- A step that leaves the word and the names, and after which the thread is not at the compare-and-swap. -/
theorem Conf.Calm.still (h : c.Calm pid) (hword : c'.word = c.word) (hname : c'.name = c.name)
    (hpc : c'.pc = Function.update c.pc t q) (hq : ∀ old, q.replaces = some old → old.pid ≠ pid)
    (hcas : ∀ a old, q ≠ .cas a old) : c'.Calm pid where
  word := by rw [hword, hname]; exact h.word
  replaces := fun u old ho => by
    rw [hpc] at ho
    by_cases hu : u = t
    · rw [hu, Function.update_self] at ho
      exact hq old ho
    · rw [Function.update_of_ne hu] at ho
      exact h.replaces u old ho
  fresh := fun u a old ho => by
    rw [hname]
    rw [hpc] at ho
    by_cases hu : u = t
    · rw [hu, Function.update_self] at ho
      exact absurd ho (hcas a old)
    · rw [Function.update_of_ne hu] at ho
      exact h.fresh u a old ho

theorem Conf.Calm.step (h : c.Calm pid) (hinv : c.Inv pid) {e : τ × Move} (he : e.2.OtherThanZygote)
    (hs : c.step pid e = some c') : c'.Calm pid := by
  obtain ⟨t, move⟩ := e
  have hfree : ∀ {a : Nat} {q : Pc}, (c.pc t).own = some a → q.replaces = none → (∀ b old, q ≠ .cas b old) →
      ((c.free a).goto t q).Calm pid := fun {a q} ha hq hcas => by
    rw [hinv.free_eq ha]
    exact h.still rfl rfl rfl (by simp [hq]) hcas
  cases move with
  | run =>
    cases hpc : c.pc t with
    | idle =>
      simp only [Conf.step, hpc, Option.some.injEq] at hs
      subst hs
      exact h.still rfl rfl rfl (by simp [Pc.replaces]) (by simp)
    | load =>
      simp only [Conf.step, hpc, Option.some.injEq] at hs
      subst hs
      exact h.still rfl rfl rfl (by simp [Pc.replaces]) (by simp)
    | compare old =>
      simp only [Conf.step, hpc] at hs
      split_ifs at hs with hpid hname
      · have hword := hinv.seen t old (by rw [hpc]; rfl) hpid
        have hlive : old.ptr ∈ c.live := hword ▸ hinv.live_of_pid (by rw [hword, hpid])
        simp only [Conf.unless, hlive, ↓reduceIte, Option.some.injEq] at hs
        subst hs
        exact h.still rfl rfl rfl (by simp [Pc.replaces]) (by simp)
      · -- the name would be `zygote`
        have hword := hinv.seen t old (by rw [hpc]; rfl) hpid
        exact absurd (hword ▸ h.word (by rw [hword, hpid])) hname
      · obtain rfl := Option.some.inj hs
        refine h.still rfl rfl rfl (fun w hw => ?_) (by simp)
        obtain rfl : old = w := by simpa [Pc.replaces] using hw
        exact hpid
    | read old => simp [Conf.step, hpc] at hs
    | cas procname old =>
      simp only [Conf.step, hpc] at hs
      split_ifs at hs with hword
      · obtain rfl := Option.some.inj hs
        have hq : (c.goto t (.release procname old)).Calm pid :=
          h.still rfl rfl rfl (by simp [Pc.replaces]) (by simp)
        exact ⟨fun _ => h.fresh t procname old hpc, hq.replaces, hq.fresh⟩
      · obtain rfl := Option.some.inj hs
        exact h.still rfl rfl rfl (by simp [Pc.replaces]) (by simp)
    | release procname old =>
      simp only [Conf.step, hpc] at hs
      split_ifs at hs with hold
      · obtain rfl := Option.some.inj hs
        exact hfree (by rw [hpc, Pc.own, if_pos hold]) rfl (by simp)
      · obtain rfl := Option.some.inj hs
        exact h.still rfl rfl rfl (by simp [Pc.replaces]) (by simp)
    | discard procname =>
      simp only [Conf.step, hpc, Option.some.injEq] at hs
      subst hs
      exact hfree (by rw [hpc]; rfl) rfl (by simp)
    | ret name =>
      simp only [Conf.step, hpc, Option.some.injEq, Conf.unless] at hs
      split_ifs at hs
      all_goals
        subst hs
        exact h.still rfl rfl rfl (by simp [Pc.replaces]) (by simp)
  | read a name =>
    cases hpc : c.pc t with
    | read old =>
      simp only [Conf.step, hpc] at hs
      split_ifs at hs with ha
      obtain rfl := Option.some.inj hs
      -- the address is of no buffer that is in use
      have hsame : ∀ b ∈ c.live, Function.update c.name a name b = c.name b := fun b hb =>
        Function.update_of_ne (fun hba => ha.2.2 (by rw [← hba]; exact hb)) _ _
      constructor
      case word =>
        intro hpid
        change Function.update c.name a name c.word.ptr ≠ _
        rw [hsame _ (hinv.live_of_pid hpid)]
        exact h.word hpid
      case replaces =>
        intro u w hw
        by_cases hu : u = t
        · obtain rfl : old = w := by simpa [Conf.goto, hu, Pc.replaces] using hw
          exact h.replaces t old (by rw [hpc]; rfl)
        · exact h.replaces u w (by simpa [Conf.goto, hu] using hw)
      case fresh =>
        intro u b w hw
        change Function.update c.name a name b ≠ _
        by_cases hu : u = t
        · obtain ⟨rfl, -⟩ : a = b ∧ old = w := by simpa [Conf.goto, hu] using hw
          rw [Function.update_self]
          exact he
        · have hw' : c.pc u = .cas b w := by simpa [Conf.goto, hu] using hw
          rw [hsame b (hinv.own u b (by rw [hw']; rfl)).1]
          exact h.fresh u b w hw'
    | _ => simp [Conf.step, hpc] at hs

/-- **In a process that is never called `zygote`, names stay valid.** -/
theorem names_other_than_zygote (h : Reach (Conf.step pid) (fun _ e => e.2.OtherThanZygote)
    (fun c => c.Started pid ∧ (c.word.pid = pid → c.name c.word.ptr ≠ "zygote".toList)) c) : c.faults = [] := by
  have hinv : c.Inv pid ∧ c.Calm pid := by
    refine Reach.inv (I := fun c => c.Inv pid ∧ c.Calm pid)
      (fun c hc => ⟨hc.1.inv, hc.2, fun t old ho => ?_, fun t a old ho => ?_⟩)
      (fun c e c' hc he hs => ⟨hc.1.step (hc.2.not_replaces e) hs, hc.2.step hc.1 he hs⟩) h
    · rw [hc.1.idle t] at ho
      cases ho
    · rw [hc.1.idle t] at ho
      cases ho
  exact hinv.1.faults

end Inv

/-! ## A name that is replaced -/

/-- Process 7 with two threads, before the first call. -/
def freshConf : Conf Bool := ⟨⟨0, 0⟩, ∅, fun _ => [], fun _ => .idle, ∅, []⟩

theorem freshConf_started : freshConf.Started 7 :=
  ⟨fun _ => rfl, rfl, rfl, Finset.notMem_empty 0, Or.inl rfl, by omega⟩

/-- A call that reads a name into a new buffer and publishes it. -/
def reading (t : Bool) (a : Nat) (name : String) : List (Bool × Move) :=
  [(t, .run), (t, .run), (t, .run), (t, .read a name.toList), (t, .run), (t, .run), (t, .run)]

/-- Both threads read `app` at the same time. -/
def racing : List (Bool × Move) :=
  [(false, .run), (true, .run), (false, .run), (true, .run), (false, .run), (true, .run),
    (false, .read 0x10 "app".toList), (true, .read 0x20 "app".toList), (false, .run), (true, .run), (true, .run),
    (false, .run), (false, .run)]

/-- One of their names is returned, the other freed. -/
theorem two_calls_valid :
    ∃ c, Reach (Conf.step 7) (fun c e => ¬ Conf.Replaces 7 c e) (Conf.Started 7) (c : Conf Bool) ∧
      decide (c.handed = {0x10} ∧ c.live = {0x10}) = true ∧ c.faults = [] := by
  have hrun : ∃ c, Reach (Conf.step 7) (fun c e => ¬ Conf.Replaces 7 c e) (Conf.Started 7) (c : Conf Bool) ∧
      decide (c.handed = {0x10} ∧ c.live = {0x10}) = true :=
    Reach.of_runAll freshConf_started racing _ (by decide)
  obtain ⟨c, hc, hends⟩ := hrun
  exact ⟨c, hc, hends, names_stay_valid hc⟩

/-- **The name `zygote` is returned by one call, and freed by the next, which reads another name.** -/
theorem zygote_freed :
    ∃ c, Reach (Conf.step 7) (fun _ _ => True) (Conf.Started 7) (c : Conf Bool) ∧
      decide (.handedFreed 0x10 ∈ c.faults) = true :=
  Reach.of_runAll freshConf_started (reading false 0x10 "zygote" ++ reading true 0x20 "app") _ (by decide)

end Cosmost.ProcessName
