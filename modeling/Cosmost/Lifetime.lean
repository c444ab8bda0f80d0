import Cosmost.Ended
import Mathlib.Data.BitVec

/-!
# The life of a process (`fs.c`, `pthread.c`, `clone.c`)

When the library is loaded, `init` turns the notifications on and counts the main thread, unless the process has one of
fifteen names. `pthread_create` and `clone` count a thread and call `bblog_init`; `pthread_exit` and `fini` take one from the
count and report what the thread has pending, and `fini` calls `bblog_exit(1)` and says how many threads it cannot account
for. `fini` is called as a destructor, and from `atexit` if `init` has come that far. The flusher thread is not part of
this; its life is in `Flusher.Life`.

`lifetime_ends`: a process that `init` passes over ends with a fault in its first `fini`, unless it has counted a thread,
and logs nothing; any other process logs what it would log without the counting, and what its calls of `fini` say is given
by the counted threads. The first of them is right, of a process that is not passed over, exactly if all that was counted
are threads: a `pthread_create` that returns an error is counted too, and so is a process that `clone` makes.
-/

namespace Cosmost

open Cosmost.Lib Cosmost.Fs Cosmost.Batch Cosmost.Bblog

/-! ## The code -/

/-- The processes that `init` passes over. -/
def skippedNames : List (List Char) :=
  ["logcat", "/system/bin/sdcard", "sdcard", "/system/bin/mpdecision", "mpdecision", "/system/xbin/su", "su", "/sbin/adbd",
    "adbd", "/system/bin/sensors.qcom", "sensors.qcom", "edu.buffalo.cse.phonelab.conductor",
    "srg.cs.illinois.edu.storagestudy", "storaged", "/system/bin/storaged"].map String.toList

/-- `init` returns before it turns the notifications on. -/
def Skipped (e : Process) : Prop := e.name ∈ skippedNames

instance (e : Process) : Decidable (Skipped e) := inferInstanceAs (Decidable (_ ∈ _))

/-- The globals of the library in a process, the variables of its threads, and the world around it. -/
structure Lifetime (W : Type) where
  /-- `_notify`. -/
  notifyOn : Bool
  /-- `num_active_threads`. -/
  numActiveThreads : BitVec 32
  threads : Int → Thread
  world : W
  store : State
  /-- How many messages were logged. -/
  logged : Nat
  /-- What `fini` said of threads that are unaccounted for. -/
  unaccounted : List Int

/-- `CLONE_THREAD`. -/
def cloneTHREAD : Nat := 0x10000

/-- What happens in a process; the results are those of the underlying calls. -/
inductive Happening
  /-- A call of a data wrapper. -/
  | access (tid : Int) (en : Entry) (c : Batch.Call)
  /-- `close` and `fclose`. -/
  | close (tid fd : Int)
  | file (tid : Int) (call : LibCall)
  | pthreadCreate (ret : Int)
  | clone (flags : Nat) (ret : Int)
  | pthreadExit (tid : Int)

section Code

variable {W : Type} (A : Allocator) (e : Process) (n : Nat) (d : Disk W) (times : Nat → Timeval)

/-- The messages go through `bblog`. -/
def Lifetime.log (ms : List (Int × Message)) (l : Lifetime W) : Except Stuck (Lifetime W) := do
  let store ← logAll A e n ((texts (fun i => times (i + l.logged)) ms).map some) l.store
  return { l with store := store, logged := l.logged + ms.length }

/-- What a thread reports of an event of its data wrappers is logged. -/
def Lifetime.does (tid : Int) (ev : Batch.Event) (l : Lifetime W) : Except Stuck (Lifetime W) := do
  let l ← l.log A e n times (((l.threads tid).reports ev).map fun r => (tid, .report r))
  return { l with threads := Function.update l.threads tid ((l.threads tid).step ev) }

/-- `pthread_common(created, main)`, called by the thread `tid`; `close_common(-1)` is the event `exit` of its data
wrappers. -/
def Lifetime.pthreadCommon (created : Bool) (main tid : Int) (l : Lifetime W) : Except Stuck (Lifetime W) := do
  if created then
    return { l with numActiveThreads := l.numActiveThreads + 1, store := bblogInit A e l.store }
  let numThreads := l.numActiveThreads - 1
  let l := { l with numActiveThreads := numThreads }
  let l ← l.does A e n times tid .exit
  let store ← bblogExit A e main l.store
  return { l with
    store := store
    unaccounted := l.unaccounted ++ if main ≠ 0 ∧ numThreads.toInt ≠ 0 then [numThreads.toInt] else [] }

/-- `init`. -/
def Lifetime.init (l : Lifetime W) : Except Stuck (Lifetime W) :=
  if Skipped e then .ok l else { l with notifyOn := true }.pthreadCommon A e n times true 1 0

/-- `fini`. -/
def Lifetime.fini (tid : Int) : Lifetime W → Except Stuck (Lifetime W) :=
  Lifetime.pthreadCommon A e n times false 1 tid

/-- What happens next. Whoever creates a thread does not matter to `pthread_common`. -/
def Lifetime.step (l : Lifetime W) : Happening → Except Stuck (Lifetime W)
  | .access tid en c => do
    let t := l.threads tid
    let out := en.run l.notifyOn c (t en.wrapper).vars
    let l ← l.log A e n times ((reports out.2).map fun r => (tid, .report r))
    let t := Function.update t en.wrapper ((t en.wrapper).keep (some c) out)
    return { l with threads := Function.update l.threads tid t }
  | .close tid fd => if fd ≠ -1 ∧ l.notifyOn then l.does A e n times tid (.close fd) else .ok l
  | .file tid call => do
    let out := call.run d.kernel l.notifyOn d.libc l.world
    let l ← l.log A e n times ((Lib.records out.acts).map fun r => (tid, .file r))
    return { l with world := out.world }
  | .pthreadCreate ret => if ret ≠ -1 then l.pthreadCommon A e n times true 0 0 else .ok l
  | .clone _ ret => if ret ≠ -1 ∧ ret ≠ 0 then l.pthreadCommon A e n times true 0 0 else .ok l
  | .pthreadExit tid => l.pthreadCommon A e n times false 0 tid

/-- The calls of `fini` at the end. -/
def Lifetime.finis (tid : Int) : Nat → Lifetime W → Except Stuck (Lifetime W)
  | 0, l => .ok l
  | k + 1, l => do
    let l ← l.fini A e n times tid
    Lifetime.finis tid k l

/-- All that happens, and then the calls of `fini`. -/
def Lifetime.run (tid : Int) (k : Nat) : List Happening → Lifetime W → Except Stuck (Lifetime W)
  | [], l => l.finis A e n times tid k
  | h :: hs, l => do
    let l ← l.step A e n d times h
    Lifetime.run tid k hs l

/-- The library is loaded into a process, and the process lives, until the thread `tid` ends it. -/
def lifetime (tid : Int) (hs : List Happening) (k : Nat) (w : W) (c : Nat) (mem : Nat → Pibr) :
    Except Stuck (Lifetime W) := do
  let l ← Lifetime.init A e n times ⟨false, 0, fun _ => Thread.init, w, .init c mem, 0, []⟩
  l.run A e n d times tid k hs

end Code

/-! ## What it is to do -/

/-- What a thread does with files in it. -/
def Happening.doing : Happening → Option (Int × Doing)
  | .access tid en c => some (tid, .data (.access en c))
  | .close tid fd => if fd = -1 then none else some (tid, .data (.close fd))
  | .file tid call => some (tid, .file call)
  | .pthreadCreate _ | .clone _ _ => none
  | .pthreadExit tid => some (tid, .data .exit)

/-- What is done with files in the life of a process. The first `fini` reports what the thread has pending. -/
def doings (tid : Int) (k : Nat) (hs : List Happening) : List (Int × Doing) :=
  hs.filterMap Happening.doing ++ if k = 0 then [] else [(tid, .data .exit)]

/-- A creation that is counted. -/
def Happening.Counted : Happening → Prop
  | .pthreadCreate ret => ret ≠ -1
  | .clone _ ret => ret ≠ -1 ∧ ret ≠ 0
  | _ => False

/-- A creation of a thread of the process: `pthread_create` returns an error number when it fails. -/
def Happening.Begins : Happening → Prop
  | .pthreadCreate ret => ret = 0
  | .clone flags ret => 0 < ret ∧ flags &&& cloneTHREAD ≠ 0
  | _ => False

/-- A thread leaves the process. -/
def Happening.Ends : Happening → Prop
  | .pthreadExit _ => True
  | _ => False

instance : DecidablePred Happening.Counted := fun h => by cases h <;> unfold Happening.Counted <;> infer_instance
instance : DecidablePred Happening.Begins := fun h => by cases h <;> unfold Happening.Begins <;> infer_instance
instance : DecidablePred Happening.Ends := fun h => by cases h <;> unfold Happening.Ends <;> infer_instance

/-- How many threads more there are, of those that are taken to begin. -/
def census (p : Happening → Prop) [DecidablePred p] (hs : List Happening) : Int :=
  (hs.countP fun h => p h) - (hs.countP fun h => h.Ends)

/-- What `k` calls of `fini` say when the count stands at `m`. -/
def told : Nat → Int → List Int
  | 0, _ => []
  | k + 1, m => (if (m - 1).bmod (2 ^ 32) = 0 then [] else [(m - 1).bmod (2 ^ 32)]) ++ told k (m - 1)

/-! ## Logging -/

/-- `bblog_init` leaves a current buffer as it is. -/
theorem bblogInit_current {A : Allocator} {e : Process} {s : State} (hp : s.procPibr ≠ 0) : bblogInit A e s = s := by
  simp [bblogInit, swapBuffers, hp]

/-- A run of `bblog` is one run after another. -/
theorem logAll_split {A : Allocator} {e : Process} (he : e.Fits) (hA : Serves A) (n : Nat)
    (as bs : List (Option (List Char))) : ∀ {s : State} {msgs : List (List Char)}, Running e s msgs →
    (∀ m ∈ Bblog.records s.cntr (as ++ bs), FitsEmpty (prefixText e).length m) →
    ∃ s' msgs', logAll A e (n + 2) as s = .ok s' ∧ Running e s' msgs' ∧
      (∀ m ∈ Bblog.records s'.cntr bs, FitsEmpty (prefixText e).length m) ∧
      logAll A e (n + 2) (as ++ bs) s = logAll A e (n + 2) bs s' := by
  induction as with
  | nil => exact fun {s msgs} h hfits => ⟨s, msgs, rfl, h, hfits, rfl⟩
  | cons body as ih =>
    intro s msgs h hfits
    obtain ⟨s₁, ret, hs₁, hc, hp⟩ := bblog_placed he hA h (hfits _ List.mem_cons_self) n
    obtain ⟨msgs₁, hr⟩ : ∃ msgs₁, Running e s₁ msgs₁ := by
      cases hp with
      | behind hr _ => exact ⟨_, hr⟩
      | front _ hr _ => exact ⟨_, hr⟩
    obtain ⟨s', msgs', hs', hr', hfits', hlog⟩ := ih hr fun m hm => hfits m (List.mem_cons_of_mem _ (by rwa [hc] at hm))
    refine ⟨s', msgs', ?_, hr', hfits', ?_⟩
    · simp only [logAll, hs₁, bind, Except.bind]
      exact hs'
    · simp only [List.cons_append, logAll, hs₁, bind, Except.bind]
      exact hlog

/-- The texts of more messages. -/
theorem texts_append (times : Nat → Timeval) (ms ms' : List (Int × Message)) :
    texts times (ms ++ ms') = texts times ms ++ texts (fun i => times (i + ms.length)) ms' := by
  rw [texts, texts, texts, List.mapIdx_append]

/-! ## A process that is not passed over -/

section Traced

variable {W : Type} {A : Allocator} {e : Process} {n : Nat} {d : Disk W} {times : Nat → Timeval} {l l' : Lifetime W}

/-- The texts that are still to be logged. -/
def Lifetime.ahead (d : Disk W) (times : Nat → Timeval) (l : Lifetime W) (es : List (Int × Doing)) :
    List (Option (List Char)) :=
  (texts (fun i => times (i + l.logged)) (messages d l.threads l.world es)).map some

/-- The library is on, and has its buffer, and there is room for what is still to be logged. -/
structure Lifetime.Traced (e : Process) (d : Disk W) (times : Nat → Timeval) (l : Lifetime W)
    (es : List (Int × Doing)) : Prop where
  on : l.notifyOn = true
  running : ∃ msgs, Running e l.store msgs
  fits : ∀ m ∈ Bblog.records l.store.cntr (l.ahead d times es), FitsEmpty (prefixText e).length m

theorem Lifetime.Traced.current {es : List (Int × Doing)} (h : l.Traced e d times es) : l.store.procPibr ≠ 0 := by
  obtain ⟨msgs, hr⟩ := h.running
  have := hr.page.1
  omega

/-- **Messages are logged**: those of a step, and what is ahead of the state behind it. -/
theorem Lifetime.Traced.log (he : e.Fits) (hA : Serves A) {es : List (Int × Doing)} (h : l.Traced e d times es)
    (es' : List (Int × Doing)) {ms : List (Int × Message)} {threads : Int → Thread} {world : W}
    (hms : messages d l.threads l.world es = ms ++ messages d threads world es') :
    ∃ s, l.log A e (n + 2) times ms = .ok { l with store := s, logged := l.logged + ms.length } ∧
      ∀ active, let l' : Lifetime W := ⟨l.notifyOn, active, threads, world, s, l.logged + ms.length, l.unaccounted⟩
      l'.Traced e d times es' ∧
      logAll A e (n + 2) (l.ahead d times es) l.store = logAll A e (n + 2) (l'.ahead d times es') s := by
  obtain ⟨msgs, hr⟩ := h.running
  have htimes : (fun i => times (i + ms.length + l.logged)) = fun i => times (i + (l.logged + ms.length)) := by
    funext i
    rw [Nat.add_assoc, Nat.add_comm ms.length]
  have hahead : l.ahead d times es = (texts (fun i => times (i + l.logged)) ms).map some ++
      (texts (fun i => times (i + (l.logged + ms.length))) (messages d threads world es')).map some := by
    rw [Lifetime.ahead, hms, texts_append, List.map_append, htimes]
  have hfits := h.fits
  rw [hahead] at hfits ⊢
  obtain ⟨s, msgs', hs, hr', hfits', hlog⟩ := logAll_split he hA n _ _ hr hfits
  refine ⟨s, ?_, fun active => ⟨⟨h.on, ⟨msgs', hr'⟩, hfits'⟩, hlog⟩⟩
  simp only [Lifetime.log, hs, bind, Except.bind, pure, Except.pure]

/-- A call of a data wrapper is an event of its thread. -/
theorem keep_eq_step (t : Thread) (en : Entry) (c : Batch.Call) :
    Function.update t en.wrapper ((t en.wrapper).keep (some c) (en.run true c (t en.wrapper).vars)) =
      t.step (.access en c) := by
  funext w
  by_cases hw : w = en.wrapper
  · subst hw
    simp [Thread.step, Journal.step]
  · simp [Thread.step, Journal.step, hw, Ne.symm hw]

/-- What a step does to the count. -/
def Happening.change (h : Happening) : Int := if h.Counted then 1 else if h.Ends then -1 else 0

/-- What a step of a process comes to. -/
structure Lifetime.Follows (A : Allocator) (e : Process) (n : Nat) (d : Disk W) (times : Nat → Timeval)
    (l l' : Lifetime W) (change : Int) (es es' : List (Int × Doing)) : Prop where
  traced : l'.Traced e d times es'
  count : l'.numActiveThreads = l.numActiveThreads + BitVec.ofInt 32 change
  unaccounted : l'.unaccounted = l.unaccounted
  logAll : Bblog.logAll A e (n + 2) (l.ahead d times es) l.store = Bblog.logAll A e (n + 2) (l'.ahead d times es') l'.store

/-- An event of the data wrappers of a thread. -/
theorem Lifetime.Traced.does (he : e.Fits) (hA : Serves A) {es : List (Int × Doing)} {tid : Int} {ev : Batch.Event}
    (h : l.Traced e d times ((tid, .data ev) :: es)) :
    ∃ l', l.does A e (n + 2) times tid ev = .ok l' ∧ l.Follows A e n d times l' 0 ((tid, .data ev) :: es) es := by
  obtain ⟨s, hs, hrest⟩ := h.log he hA (n := n) es rfl
  obtain ⟨htraced, hlog⟩ := hrest l.numActiveThreads
  refine ⟨_, ?_, htraced, by simp, rfl, hlog⟩
  simp only [Lifetime.does, hs, bind, Except.bind, pure, Except.pure]

/-- **A step of a process that is traced.** -/
theorem Lifetime.Traced.step (he : e.Fits) (hA : Serves A) (hd : Happening) {es : List (Int × Doing)}
    (h : l.Traced e d times (hd.doing.toList ++ es)) :
    ∃ l', l.step A e (n + 2) d times hd = .ok l' ∧ l.Follows A e n d times l' hd.change (hd.doing.toList ++ es) es := by
  have hcreate : ∀ {hd : Happening}, hd.doing = none → hd.Counted → l.Traced e d times (hd.doing.toList ++ es) →
      ∃ l', l.pthreadCommon A e (n + 2) times true 0 0 = .ok l' ∧
        l.Follows A e n d times l' hd.change (hd.doing.toList ++ es) es := by
    intro hd hnone hcounted h
    rw [hnone] at h ⊢
    refine ⟨_, rfl, ?_⟩
    rw [bblogInit_current h.current, Happening.change, if_pos hcounted]
    exact ⟨⟨h.on, h.running, h.fits⟩, rfl, rfl, rfl⟩
  have hstay : ∀ {hd : Happening}, hd.doing = none → hd.change = 0 → l.Traced e d times (hd.doing.toList ++ es) →
      l.Follows A e n d times l hd.change (hd.doing.toList ++ es) es := by
    intro hd hnone hchange h
    rw [hnone] at h ⊢
    rw [hchange]
    exact ⟨h, by simp, rfl, rfl⟩
  cases hd with
  | access tid en c =>
    obtain ⟨s, hs, hrest⟩ := h.log he hA (n := n) es rfl
    obtain ⟨htraced, hlog⟩ := hrest l.numActiveThreads
    refine ⟨_, ?_, htraced, by simp [Happening.change, Happening.Counted, Happening.Ends], rfl, hlog⟩
    simp only [Thread.reports] at hs ⊢
    simp only [Lifetime.step, h.on, hs, bind, Except.bind, pure, Except.pure, keep_eq_step]
  | close tid fd =>
    by_cases hfd : fd = -1
    · refine ⟨l, by simp [Lifetime.step, hfd], hstay (by simp [Happening.doing, hfd]) ?_ h⟩
      simp [Happening.change, Happening.Counted, Happening.Ends]
    · have hdoing : (Happening.close tid fd).doing = some (tid, .data (.close fd)) := if_neg hfd
      rw [hdoing] at h ⊢
      obtain ⟨l', hl', hf⟩ := Lifetime.Traced.does he hA h
      exact ⟨l', by rw [Lifetime.step, if_pos ⟨hfd, h.on⟩, hl'], hf⟩
  | file tid call =>
    obtain ⟨s, hs, hrest⟩ := h.log he hA (n := n) es rfl
    obtain ⟨htraced, hlog⟩ := hrest l.numActiveThreads
    refine ⟨_, ?_, htraced, by simp [Happening.change, Happening.Counted, Happening.Ends], rfl, hlog⟩
    simp only [Disk.records] at hs ⊢
    simp only [Lifetime.step, h.on, hs, bind, Except.bind, pure, Except.pure]
    rfl
  | pthreadCreate ret =>
    by_cases hret : ret ≠ -1
    · simp only [Lifetime.step, if_pos hret]
      exact hcreate rfl hret h
    · refine ⟨l, by simp only [Lifetime.step, if_neg hret], hstay rfl ?_ h⟩
      simp [Happening.change, Happening.Counted, Happening.Ends, hret]
  | clone flags ret =>
    by_cases hret : ret ≠ -1 ∧ ret ≠ 0
    · simp only [Lifetime.step, if_pos hret]
      exact hcreate rfl hret h
    · refine ⟨l, by simp only [Lifetime.step, if_neg hret], hstay rfl ?_ h⟩
      simp [Happening.change, Happening.Counted, Happening.Ends, hret]
  | pthreadExit tid =>
    have hless : ({ l with numActiveThreads := l.numActiveThreads - 1 } : Lifetime W).Traced e d times
        ((tid, .data .exit) :: es) := ⟨h.on, h.running, h.fits⟩
    obtain ⟨l', hl', hf⟩ := hless.does he hA (n := n)
    refine ⟨l', ?_, hf.traced, ?_, hf.unaccounted, hf.logAll⟩
    · simp only [Lifetime.step, Lifetime.pthreadCommon, hl', bind, Except.bind, pure, Except.pure]
      simp [bblogExit]
    · rw [hf.count]
      simp [Happening.change, Happening.Counted, Happening.Ends, sub_eq_add_neg]

/-! ### The end -/

/-- The thread has nothing pending. -/
def Closed (t : Thread) : Prop := ∀ w, (t w).vars.lastFd = -1

theorem closeWith_closed (name : String) {b : Vars} : (closeWith name (-1) b).1.lastFd = -1 := by
  by_cases hfd : b.lastFd = -1
  · simp [closeWith, hfd]
  · simp [closeWith, notifyReadWrite, hfd]

/-- `close_common(-1)` leaves nothing pending. -/
theorem closed_exit (t : Thread) : Closed (t.step .exit) := by
  intro w
  simp only [Thread.step, Journal.step, Journal.keep]
  cases w <;> exact closeWith_closed _

theorem Lifetime.does_exit {tid : Int} (h : l.does A e n times tid .exit = .ok l') : Closed (l'.threads tid) := by
  simp only [Lifetime.does, bind, Except.bind, pure, Except.pure] at h
  split at h
  · cases h
  · cases h
    simpa using closed_exit _

/-- Where nothing is pending it reports nothing. -/
theorem Closed.reports_exit {t : Thread} (h : Closed t) : t.reports .exit = [] := by
  have hnone : ∀ w : Wrapper, reports (w.close (-1) (t w).vars).2 = [] := by
    intro w
    have hfd := h w
    cases w <;> simp [Wrapper.close, readClose, writeClose, freadClose, fwriteClose, pread64Close, pwrite64Close, closeWith,
      hfd, reports]
  simp [Thread.reports, hnone]

theorem ofInt_pred (m : Int) : BitVec.ofInt 32 m - 1 = BitVec.ofInt 32 (m - 1) := by
  rw [Int.sub_eq_add_neg, BitVec.ofInt_add, BitVec.sub_eq_add_neg]
  rfl

/-- `fini`, of what it does in turn. -/
theorem Lifetime.fini_eq {tid m : Int} {s : State} (hcount : l.numActiveThreads = BitVec.ofInt 32 m)
    (hdoes : Lifetime.does A e n times tid .exit { l with numActiveThreads := l.numActiveThreads - 1 } = .ok l')
    (hunaccounted : l'.unaccounted = l.unaccounted) (hexit : bblogExit A e 1 l'.store = .ok s) :
    l.fini A e n times tid = .ok { l' with store := s, unaccounted := l.unaccounted ++ told 1 m } := by
  have hless : (l.numActiveThreads - 1).toInt = (m - 1).bmod (2 ^ 32) := by
    rw [hcount, ofInt_pred, BitVec.toInt_ofInt]
  simp only [Lifetime.fini, Lifetime.pthreadCommon, hdoes, bind, Except.bind, pure, Except.pure, hexit, hless, hunaccounted]
  simp [told]

variable (A e n times) in
/-- **The calls of `fini`** of a thread that has nothing pending. -/
theorem Lifetime.finis_closed (tid : Int) (k : Nat) : ∀ {l : Lifetime W} {m : Int}, Closed (l.threads tid) →
    Sane l.store → l.store.procPibr ≠ 0 → l.numActiveThreads = BitVec.ofInt 32 m →
    ∃ l', l.finis A e n times tid k = .ok l' ∧ Cosmost.finis A e k l.store = .ok l'.store ∧
      l'.unaccounted = l.unaccounted ++ told k m := by
  induction k with
  | zero => exact fun {l m} _ _ _ _ => ⟨l, rfl, rfl, (List.append_nil _).symm⟩
  | succ k ih =>
    intro l m hclosed hsane hp hcount
    obtain ⟨s₁, hexit, hsane₁, hp₁, -⟩ := bblogExit_sane (A := A) (e := e) hsane hp
    have hdoes : Lifetime.does A e n times tid .exit { l with numActiveThreads := l.numActiveThreads - 1 } =
        .ok { l with
          numActiveThreads := l.numActiveThreads - 1
          threads := Function.update l.threads tid ((l.threads tid).step .exit) } := by
      simp [Lifetime.does, Lifetime.log, hclosed.reports_exit, texts, logAll, bind, Except.bind, pure, Except.pure]
    have hfini := Lifetime.fini_eq hcount hdoes rfl hexit
    obtain ⟨l', hl', hstore, htold⟩ := ih (l := { l with
      numActiveThreads := l.numActiveThreads - 1
      threads := Function.update l.threads tid ((l.threads tid).step .exit)
      store := s₁
      unaccounted := l.unaccounted ++ told 1 m }) (m := m - 1) (by simpa using closed_exit _) hsane₁ hp₁
      (by rw [← ofInt_pred, ← hcount])
    refine ⟨l', ?_, ?_, ?_⟩
    · simp only [Lifetime.finis, hfini, bind, Except.bind]
      exact hl'
    · simp only [Cosmost.finis, hexit, bind, Except.bind]
      exact hstore
    · rw [htold]
      simp [told]

/-- One more happening in the census. -/
theorem census_cons (h : Happening) (hs : List Happening) :
    census Happening.Counted (h :: hs) = h.change + census Happening.Counted hs := by
  have hboth : h.Counted → ¬ h.Ends := by cases h <;> simp [Happening.Counted, Happening.Ends]
  simp only [census, List.countP_cons, Happening.change, decide_eq_true_eq]
  by_cases hc : h.Counted
  · simp only [hc, hboth hc, ↓reduceIte]
    push_cast
    ring
  · by_cases he : h.Ends
    · simp only [hc, he, ↓reduceIte]
      push_cast
      ring
    · simp only [hc, he, ↓reduceIte]
      push_cast
      ring

/-- The first call of `fini` reports, and then the others have nothing to do. -/
theorem Lifetime.Traced.finis (he : e.Fits) (hA : Serves A) {tid m : Int} {k : Nat}
    (h : l.Traced e d times (doings tid k [])) (hcount : l.numActiveThreads = BitVec.ofInt 32 m) :
    ∃ s l', logAll A e (n + 2) (l.ahead d times (doings tid k [])) l.store = .ok s ∧
      Cosmost.finis A e k s = .ok l'.store ∧ l.finis A e (n + 2) times tid k = .ok l' ∧
      l'.unaccounted = l.unaccounted ++ told k m := by
  cases k with
  | zero => exact ⟨l.store, l, rfl, rfl, rfl, (List.append_nil _).symm⟩
  | succ k =>
    have hless : ({ l with numActiveThreads := l.numActiveThreads - 1 } : Lifetime W).Traced e d times
        ((tid, .data .exit) :: []) := ⟨h.on, h.running, h.fits⟩
    obtain ⟨l₁, hdoes, hf⟩ := hless.does he hA (n := n)
    obtain ⟨msgs, hr⟩ := hf.traced.running
    obtain ⟨s₁, hexit, hsane, hp, -⟩ := bblogExit_sane (A := A) (e := e)
      (hr.toReady.sane (by rw [hr.procid]; exact e.pos)) hf.traced.current
    have hfini := Lifetime.fini_eq hcount hdoes hf.unaccounted hexit
    have hclosed := Lifetime.does_exit hdoes
    have hcount₁ : l₁.numActiveThreads = BitVec.ofInt 32 (m - 1) := by
      rw [← ofInt_pred, ← hcount]
      exact hf.count.trans (by simp)
    obtain ⟨l', hl', hstore, htold⟩ := Lifetime.finis_closed A e (n + 2) times tid k
      (l := { l₁ with store := s₁, unaccounted := l.unaccounted ++ told 1 m }) hclosed hsane hp hcount₁
    refine ⟨l₁.store, l', hf.logAll, ?_, ?_, ?_⟩
    · simp only [Cosmost.finis, hexit, bind, Except.bind]
      exact hstore
    · simp only [Lifetime.finis, hfini, bind, Except.bind]
      exact hl'
    · rw [htold]
      simp [told]

/-- **The life of a process that is traced.** -/
theorem Lifetime.Traced.run (he : e.Fits) (hA : Serves A) (tid : Int) (k : Nat) (hs : List Happening) :
    ∀ {l : Lifetime W} {m : Int}, l.Traced e d times (doings tid k hs) → l.numActiveThreads = BitVec.ofInt 32 m →
    ∃ s l', logAll A e (n + 2) (l.ahead d times (doings tid k hs)) l.store = .ok s ∧
      Cosmost.finis A e k s = .ok l'.store ∧ l.run A e (n + 2) d times tid k hs = .ok l' ∧
      l'.unaccounted = l.unaccounted ++ told k (m + census Happening.Counted hs) := by
  induction hs with
  | nil =>
    intro l m h hcount
    have hnone : m + census Happening.Counted [] = m := by simp [census]
    rw [hnone]
    exact h.finis he hA hcount
  | cons hd hs ih =>
    intro l m h hcount
    have hdoings : doings tid k (hd :: hs) = hd.doing.toList ++ doings tid k hs := by
      cases hx : hd.doing <;> simp [doings, hx]
    rw [hdoings] at h ⊢
    obtain ⟨l₁, hl₁, hf⟩ := h.step he hA hd (n := n)
    obtain ⟨s, l', hs', hfinis, hl', htold⟩ := ih hf.traced (m := m + hd.change)
      (by rw [hf.count, hcount, BitVec.ofInt_add])
    refine ⟨s, l', hf.logAll.trans hs', hfinis, ?_, ?_⟩
    · simp only [Lifetime.run, hl₁, bind, Except.bind]
      exact hl'
    · rw [htold, hf.unaccounted, census_cons, add_assoc]

end Traced

/-! ## A process that is passed over -/

section Skipped

variable {W : Type} {A : Allocator} {e : Process} {n : Nat} {d : Disk W} {times : Nat → Timeval} {l : Lifetime W}
  {c : Nat} {mem : Nat → Pibr} {begun : Prop}

/-- The library is off, and nothing is pending or logged; it has a buffer if a thread was counted. -/
structure Lifetime.Quiet (c : Nat) (mem : Nat → Pibr) (begun : Prop) (l : Lifetime W) : Prop where
  off : l.notifyOn = false
  closed : ∀ tid, Closed (l.threads tid)
  fresh : ¬ begun → l.store = .init c mem
  sane : begun → Sane l.store ∧ l.store.procPibr ≠ 0 ∧ l.store.trace = []

theorem Lifetime.log_nil : l.log A e n times [] = .ok l := by
  simp [Lifetime.log, texts, logAll, bind, Except.bind, pure, Except.pure]

/-- A call of a data wrapper that is off. -/
theorem run_off (en : Entry) (c : Batch.Call) (b : Vars) : en.run false c b = (b, []) := by
  cases en <;> simp [Entry.run, Batch.read, write, fread, fwrite, stdio, pread64, pread, pwrite64, pwrite, pread64']

/-- A file call through a wrapper that is off. -/
theorem records_off (call : LibCall) (w : W) : Lib.records (call.run d.kernel false d.libc w).acts = [] := by
  cases call <;> simp [LibCall.run, creat, «open», openat, openatOp, Fs.fopen, unlink, unlinkat, unlinkatOp, rename, renameat,
    renameatOp, mmap64, mmap, mmapOp_eq, mmapRecord, callThrough, Outcome.map, Act.map]

theorem keep_nil (j : Journal) (from? : Option Batch.Call) : j.keep from? (j.vars, []) = j := by
  simp [Journal.keep]

/-- What is counted or not is not begun by it alone. -/
theorem Lifetime.Quiet.or_counted {hd : Happening} (h : l.Quiet c mem begun) (hd' : ¬ hd.Counted) :
    l.Quiet c mem (begun ∨ hd.Counted) :=
  ⟨h.off, h.closed, fun hn => h.fresh fun hb => hn (Or.inl hb), fun hb => h.sane (hb.resolve_right hd')⟩

/-- `bblog_init` gives it a buffer. -/
theorem Lifetime.Quiet.init (he : e.Fits) (hA : Serves A) (h : l.Quiet c mem begun) :
    Sane (bblogInit A e l.store) ∧ (bblogInit A e l.store).procPibr ≠ 0 ∧ (bblogInit A e l.store).trace = [] := by
  by_cases hb : begun
  · rw [bblogInit_current (h.sane hb).2.1]
    exact h.sane hb
  · obtain ⟨hr, htrace, -⟩ := bblogInit_running he hA c mem
    rw [h.fresh hb]
    have := hr.page.1
    exact ⟨hr.toReady.sane (by rw [hr.procid]; exact e.pos), by omega, htrace⟩

variable (A e n times) in
/-- The exit of a thread reports nothing. -/
theorem Lifetime.Quiet.does_exit (h : l.Quiet c mem begun) (tid : Int) :
    ∃ l', l.does A e n times tid .exit = .ok l' ∧ l'.Quiet c mem begun ∧ l'.store = l.store ∧
      l'.numActiveThreads = l.numActiveThreads ∧ l'.unaccounted = l.unaccounted := by
  refine ⟨{ l with threads := Function.update l.threads tid ((l.threads tid).step .exit) }, ?_,
    ⟨h.off, fun u => ?_, h.fresh, h.sane⟩, rfl, rfl, rfl⟩
  · simp only [Lifetime.does, (h.closed tid).reports_exit, List.map_nil, Lifetime.log_nil, bind, Except.bind, pure,
      Except.pure]
  by_cases hu : u = tid
  · subst hu
    simpa using closed_exit _
  · simpa [hu] using h.closed u

variable (n d times) in
/-- **A step of a process that is passed over.** -/
theorem Lifetime.Quiet.step (he : e.Fits) (hA : Serves A) (hd : Happening) (h : l.Quiet c mem begun) :
    ∃ l', l.step A e n d times hd = .ok l' ∧ l'.Quiet c mem (begun ∨ hd.Counted) ∧
      l'.numActiveThreads = l.numActiveThreads + BitVec.ofInt 32 hd.change ∧ l'.unaccounted = l.unaccounted := by
  have hstay : ∀ {hd : Happening} {l' : Lifetime W}, ¬ hd.Counted → ¬ hd.Ends → l.step A e n d times hd = .ok l' →
      l'.Quiet c mem begun → l'.numActiveThreads = l.numActiveThreads → l'.unaccounted = l.unaccounted →
      ∃ l', l.step A e n d times hd = .ok l' ∧ l'.Quiet c mem (begun ∨ hd.Counted) ∧
        l'.numActiveThreads = l.numActiveThreads + BitVec.ofInt 32 hd.change ∧ l'.unaccounted = l.unaccounted := by
    intro hd l' hc hends hstep hq hcount hu
    refine ⟨l', hstep, hq.or_counted hc, ?_, hu⟩
    simp [Happening.change, hc, hends, hcount]
  have hcreate : ∀ {hd : Happening}, hd.Counted →
      l.step A e n d times hd = l.pthreadCommon A e n times true 0 0 →
      ∃ l', l.step A e n d times hd = .ok l' ∧ l'.Quiet c mem (begun ∨ hd.Counted) ∧
        l'.numActiveThreads = l.numActiveThreads + BitVec.ofInt 32 hd.change ∧ l'.unaccounted = l.unaccounted := by
    intro hd hc hstep
    refine ⟨_, hstep, ⟨h.off, h.closed, fun hn => absurd (Or.inr hc) hn, fun _ => h.init he hA⟩, ?_, rfl⟩
    rw [Happening.change, if_pos hc]
    rfl
  cases hd with
  | access tid en c =>
    refine hstay id id ?_ h rfl rfl
    simp [Lifetime.step, h.off, run_off, reports, Lifetime.log_nil, keep_nil, bind, Except.bind, pure, Except.pure]
    rw [← h.off]
  | close tid fd => exact hstay id id (by simp [Lifetime.step, h.off]) h rfl rfl
  | file tid call =>
    have hstep : l.step A e n d times (.file tid call) =
        .ok { l with world := (call.run d.kernel false d.libc l.world).world } := by
      simp [Lifetime.step, h.off, records_off, Lifetime.log_nil, bind, Except.bind, pure, Except.pure]
    exact hstay id id hstep ⟨h.off, h.closed, h.fresh, h.sane⟩ rfl rfl
  | pthreadCreate ret =>
    by_cases hret : ret ≠ -1
    · exact hcreate hret (if_pos hret)
    · exact hstay hret id (if_neg hret) h rfl rfl
  | clone flags ret =>
    by_cases hret : ret ≠ -1 ∧ ret ≠ 0
    · exact hcreate hret (if_pos hret)
    · exact hstay hret id (if_neg hret) h rfl rfl
  | pthreadExit tid =>
    have hless : ({ l with numActiveThreads := l.numActiveThreads - 1 } : Lifetime W).Quiet c mem begun :=
      ⟨h.off, h.closed, h.fresh, h.sane⟩
    obtain ⟨l', hl', hq, -, hcount, hu⟩ := hless.does_exit A e n times tid
    refine ⟨l', ?_, hq.or_counted id, ?_, hu⟩
    · simp only [Lifetime.step, Lifetime.pthreadCommon, hl', bind, Except.bind, pure, Except.pure]
      simp [bblogExit]
    · rw [hcount]
      simp [Happening.change, Happening.Counted, Happening.Ends, sub_eq_add_neg]

/-- `fini` dereferences the null pointer if there is no buffer. -/
theorem Lifetime.Quiet.finis_fault (h : l.Quiet c mem begun) (hb : ¬ begun) (tid : Int) (k : Nat) :
    l.finis A e n times tid (k + 1) = .error .fault := by
  have hless : ({ l with numActiveThreads := l.numActiveThreads - 1 } : Lifetime W).Quiet c mem begun :=
    ⟨h.off, h.closed, h.fresh, h.sane⟩
  obtain ⟨l', hl', -, hstore, -⟩ := hless.does_exit A e n times tid
  have hexit : bblogExit A e 1 l'.store = .error .fault := by
    rw [hstore, show ({ l with numActiveThreads := l.numActiveThreads - 1 } : Lifetime W).store = _ from h.fresh hb]
    rfl
  simp only [Lifetime.finis, Lifetime.fini, Lifetime.pthreadCommon, hl', hexit, bind, Except.bind]
  rfl

variable (n d times) in
/-- **The life of a process that is passed over.** -/
theorem Lifetime.Quiet.run (he : e.Fits) (hA : Serves A) (tid : Int) (k : Nat) (hs : List Happening) :
    ∀ {l : Lifetime W} {m : Int} {begun : Prop}, l.Quiet c mem begun → l.numActiveThreads = BitVec.ofInt 32 m →
    (¬ begun ∧ (∀ h ∈ hs, ¬ h.Counted) ∧ k ≠ 0 → l.run A e n d times tid k hs = .error .fault) ∧
    (¬ (¬ begun ∧ (∀ h ∈ hs, ¬ h.Counted) ∧ k ≠ 0) → ∃ l', l.run A e n d times tid k hs = .ok l' ∧ l'.store.trace = [] ∧
      l'.unaccounted = l.unaccounted ++ told k (m + census Happening.Counted hs)) := by
  induction hs with
  | nil =>
    intro l m begun h hcount
    have hnone : m + census Happening.Counted [] = m := by simp [census]
    rw [hnone]
    constructor
    · rintro ⟨hb, -, hk⟩
      obtain ⟨k, rfl⟩ := Nat.exists_eq_succ_of_ne_zero hk
      exact h.finis_fault hb tid k
    · intro hno
      by_cases hb : begun
      · obtain ⟨hsane, hp, htrace⟩ := h.sane hb
        obtain ⟨l', hl', hfinis, htold⟩ := Lifetime.finis_closed A e n times tid k
          (h.closed tid) hsane hp hcount
        obtain ⟨s', hs', htrace'⟩ := finis_trace (A := A) (e := e) k hsane hp
        have hsame : l'.store = s' := Except.ok.inj (hfinis.symm.trans hs')
        exact ⟨l', hl', by rw [hsame, htrace', htrace], htold⟩
      · have hk : k = 0 := by
          by_contra hk
          exact hno ⟨hb, fun _ hm => absurd hm List.not_mem_nil, hk⟩
        subst hk
        exact ⟨l, rfl, by rw [h.fresh hb]; rfl, (List.append_nil _).symm⟩
  | cons hd hs ih =>
    intro l m begun h hcount
    obtain ⟨l₁, hl₁, hq, hcount₁, hu⟩ := h.step n d times he hA hd
    have hrun : l.run A e n d times tid k (hd :: hs) = l₁.run A e n d times tid k hs := by
      simp only [Lifetime.run, hl₁, bind, Except.bind]
    have hnone : (¬ begun ∧ (∀ h ∈ hd :: hs, ¬ h.Counted) ∧ k ≠ 0) ↔
        (¬ (begun ∨ hd.Counted) ∧ (∀ h ∈ hs, ¬ h.Counted) ∧ k ≠ 0) := by
      rw [List.forall_mem_cons]
      tauto
    obtain ⟨hdies, hlives⟩ := ih hq (m := m + hd.change) (by rw [hcount₁, hcount, BitVec.ofInt_add])
    rw [hrun, hnone]
    refine ⟨hdies, fun hno => ?_⟩
    obtain ⟨l', hl', htrace, htold⟩ := hlives hno
    exact ⟨l', hl', htrace, by rw [htold, hu, census_cons, add_assoc]⟩

end Skipped

/-! ## Both -/

section Census

variable {hs : List Happening}

/-- Every thread that begins is counted. -/
theorem Happening.Begins.counted {h : Happening} (hb : h.Begins) : h.Counted := by
  cases h with
  | pthreadCreate ret =>
    have hret : ret = 0 := hb
    simp [Happening.Counted, hret]
  | clone flags ret =>
    have hret : 0 < ret := hb.1
    exact ⟨by omega, by omega⟩
  | access | close | file | pthreadExit => exact hb

/-- The count is that of the threads exactly if all that was counted are threads. -/
theorem census_eq_iff : census Happening.Counted hs = census Happening.Begins hs ↔ ∀ h ∈ hs, h.Counted → h.Begins := by
  have hle : ∀ hs : List Happening, hs.countP (fun h => h.Begins) ≤ hs.countP fun h => h.Counted := fun hs =>
    List.countP_mono_left fun h _ hb => by simpa using Happening.Begins.counted (by simpa using hb)
  have hsame : census Happening.Counted hs = census Happening.Begins hs ↔
      hs.countP (fun h => h.Counted) = hs.countP fun h => h.Begins := by
    unfold census
    omega
  rw [hsame]
  induction hs with
  | nil => simp
  | cons h hs ih =>
    have := hle hs
    simp only [List.countP_cons, List.forall_mem_cons, decide_eq_true_eq]
    by_cases hc : h.Counted
    · by_cases hb : h.Begins
      · simp only [hc, hb, ↓reduceIte, true_implies, true_and, ← ih (by unfold census; omega)]
        omega
      · simp only [hc, hb, ↓reduceIte, true_implies, false_and, iff_false]
        omega
    · have hb : ¬ h.Begins := fun hb => hc hb.counted
      simp only [hc, hb, ↓reduceIte, false_implies, true_and, ← ih (by unfold census; omega)]
      omega

/-- A census is as large as a list at most. -/
theorem abs_census_le (p : Happening → Prop) [DecidablePred p] (hs : List Happening) : |census p hs| ≤ hs.length := by
  have hp := List.countP_le_length (p := fun h => decide (p h)) (l := hs)
  have hends := List.countP_le_length (p := fun h => decide (Happening.Ends h)) (l := hs)
  unfold census
  rw [abs_le]
  omega

/-- A number that is small is told. -/
theorem told_small {m : Int} (h : |m| < 2 ^ 31) : told 1 (1 + m) = if m = 0 then [] else [m] := by
  obtain ⟨hlow, hhigh⟩ := abs_lt.mp h
  have hmod : m.bmod (2 ^ 32) = m := Int.bmod_eq_of_le (by omega) (by omega)
  simp only [told, add_sub_cancel_left, hmod, List.append_nil]

/-- **What the first call of `fini` says is right** exactly if all that was counted are threads. -/
theorem told_right_iff (hlen : hs.length < 2 ^ 31) :
    told 1 (1 + census Happening.Counted hs) = told 1 (1 + census Happening.Begins hs) ↔
      ∀ h ∈ hs, h.Counted → h.Begins := by
  have hcounted := abs_census_le Happening.Counted hs
  have hbegins := abs_census_le Happening.Begins hs
  rw [← census_eq_iff, told_small (by omega), told_small (by omega)]
  split_ifs with h₁ h₂ h₂
  · simp [h₁, h₂]
  · simp [h₁, Ne.symm h₂]
  · simp [h₁, h₂]
  · simp

end Census

/-- A thread is created, one is not for want of memory, a file is made, and the thread exits. -/
def someLife : List Happening :=
  [.pthreadCreate 0, .pthreadCreate 11, .file 8 (.openat 5 "x".toList (oCREAT ||| oWRONLY) 0o600), .pthreadExit 8]

theorem nulFree_su : NulFree "su".toList := by
  unfold NulFree nul
  decide

/-- A process that `init` passes over. -/
def su : Process := ⟨7, "su".toList, Nat.succ_pos 6, nulFree_su⟩

end Cosmost
