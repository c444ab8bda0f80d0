import Cosmost.Bblog.Loop
import Cosmost.Bblog.Packed

/-!
# When a new buffer is initialized (`alloc_buffer`, `swap_buffers`)

`init_buffer` returns nothing, so `alloc_buffer` hands out a block whose prefix did not fit as it came from `memalign`, and
`pack_buffer` makes the word `0` of a pid that is too large. Where the prefix was made for the pid before, the block gets
that prefix, whatever the name is now. `swap_buffers` makes all of them current.

`installs_iff`: a buffer is handed out initialized and made current only so exactly when the pid fits its field and the
prefix, to be made or made before, is that of the pid and the name and fits its array, or the block happened to hold such
a buffer. `long_name_installed` is a name with which the prefix does not fit.
-/

namespace Cosmost.Bblog

open Cosmost.Lib

/-! ## Any pid and name -/

/-- The prefix of a pid and a name. -/
def prefixFor (pid : Nat) (name : List Char) : List Char :=
  "\x7b\"PID\":".toList ++ (decimal pid ++ (",\"PROC\":\"".toList ++ (name ++ "\",\"BATCH\":\x7b".toList)))

/-- `reinit_procid`, where `process_name` returns `name`. -/
def reinitProcidFor (name : List Char) (newPid : Nat) (s : State) : Bool × State :=
  if s.procid = newPid then (true, s)
  else
    let s := { s with
      prefixBuf := fits maxPrefixLen (prefixFor newPid name), prefixLen := (prefixFor newPid name).length }
    if s.prefixLen ≥ maxPrefixLen then (false, s) else (true, { s with procid := newPid })

/-- `init_buffer`. -/
def initBufferFor (name : List Char) (ptr pid : Nat) (s : State) : State :=
  match reinitProcidFor name pid s with
  | (false, s) => s
  | (true, s) => (s.setBuf ptr (strcpy (s.mem ptr).buf 0 s.prefixBuf)).setWord ptr (packBuffer ptr pid s.prefixLen 0)

/-- `alloc_buffer`. -/
def allocBufferFor (A : Allocator) (name : List Char) (pid : Nat) (s : State) : Nat × State :=
  match A.memalign s.allocs s.live with
  | none => (0, { s with allocs := s.allocs + 1 })
  | some (a, p) =>
    let s := { s with allocs := s.allocs + 1, live := a :: s.live, mem := Function.update s.mem a p }
    if a % 4096 ≠ 0 then (0, s.free a) else (a, initBufferFor name a pid s)

/-- `swap_buffers`. -/
def swapBuffersFor (A : Allocator) (name : List Char) (curr newPid : Nat) (s : State) : Bool × State :=
  if s.procPibr ≠ curr then (false, s)
  else
    let (new, s) := allocBufferFor A name newPid s
    if new = 0 then (true, { s with procPibr := 0 })
    else if s.procPibr = curr then (true, { s with procPibr := new })
    else (false, s.free new)

/-- A process passes its own pid. -/
theorem allocBuffer_eq (A : Allocator) (e : Process) (s : State) :
    allocBuffer A e s = allocBufferFor A e.name e.pid s := rfl

theorem swapBuffers_eq (A : Allocator) (e : Process) (curr : Nat) (s : State) :
    swapBuffers A e curr s = swapBuffersFor A e.name curr e.pid s := rfl

/-- The block at `a` is an empty buffer of the pid, with the prefix of the pid and the name. -/
structure Initialized (name : List Char) (pid a : Nat) (b : Pibr) : Prop where
  word : Unpacks b.pibr a pid ⟨(prefixFor pid name).length, 0⟩
  text : cstr pibrBufSize b.buf = prefixFor pid name

/-- `alloc_buffer` returns null or an initialized buffer, and `swap_buffers` makes no other current. -/
structure Installs (A : Allocator) (name : List Char) (pid : Nat) (s : State) : Prop where
  alloc : ∀ a s', allocBufferFor A name pid s = (a, s') → a ≠ 0 → Initialized name pid a (s'.mem a)
  swap : ∀ curr s', swapBuffersFor A name curr pid s = (true, s') → s'.procPibr ≠ 0 →
    Initialized name pid s'.procPibr (s'.mem s'.procPibr)

/-- The prefix that `init_buffer` finds or makes is that of the pid and the name. -/
def PrefixServes (name : List Char) (pid : Nat) (s : State) : Prop :=
  if s.procid = pid then s.prefixBuf = prefixFor pid name ∧ s.prefixLen % 2 ^ 16 = (prefixFor pid name).length
  else (prefixFor pid name).length < maxPrefixLen

/-- There is no block; or the pid fits its field and the prefix serves; or no prefix can be made, and the block holds such
a buffer already. -/
def Installable (A : Allocator) (name : List Char) (pid : Nat) (s : State) : Prop :=
  ∀ a p, A.memalign s.allocs s.live = some (a, p) →
    pid ≤ pidMax ∧ PrefixServes name pid s ∨
    s.procid ≠ pid ∧ maxPrefixLen ≤ (prefixFor pid name).length ∧ Initialized name pid a p

/-- The array `prefix` holds a string. -/
structure PrefixArray (s : State) : Prop where
  nulFree : NulFree s.prefixBuf
  short : s.prefixBuf.length < maxPrefixLen

/-! ## What a new block holds -/

theorem prefixFor_nulFree {pid : Nat} {name : List Char} (h : NulFree name) : NulFree (prefixFor pid name) := by
  have hpieces : ∀ s ∈ ["\x7b\"PID\":", ",\"PROC\":\"", "\",\"BATCH\":\x7b"], NulFree s.toList := by
    unfold NulFree nul; decide
  exact (hpieces _ (by simp)).append ((decimal_nulFree _).append
    ((hpieces _ (by simp)).append (h.append (hpieces _ (by simp)))))

/-- The index arrives in 16 bits. -/
theorem packBuffer_mod (ptr pid idx refcnt : Nat) :
    packBuffer ptr pid idx refcnt = packBuffer ptr pid (idx % 2 ^ 16) refcnt := by
  have hidx : BitVec.ofNat 16 idx = BitVec.ofNat 16 (idx % 2 ^ 16) := by
    apply BitVec.eq_of_toNat_eq
    rw [BitVec.toNat_ofNat, BitVec.toNat_ofNat, Nat.mod_mod]
  rw [packBuffer, packBuffer, hidx]

/-- A pid that is too large has no word. -/
theorem packBuffer_large {ptr pid idx refcnt : Nat} (h : ¬ pid ≤ pidMax) : packBuffer ptr pid idx refcnt = 0 :=
  if_pos (Nat.lt_of_not_le h)

section Block

variable {name : List Char} {pid a : Nat} {b : Pibr} {t : List Char} {len : Nat}

/-- The word of a new buffer of any length. -/
theorem packBuffer_unpacks (ha : Page a) (hpid : pid ≤ pidMax) (len : Nat) :
    Unpacks (packBuffer a pid len 0) a pid ⟨(len % 2 ^ 16 : Nat), (0 : Nat)⟩ := by
  have haligned : Aligned a := ⟨ha.2.1, ha.2.2⟩
  have hidx : len % 2 ^ 16 < 2 ^ 16 := Nat.mod_lt len (by omega)
  rw [packBuffer_mod]
  exact (carries_packBuffer haligned hpid hidx (by omega)).unpacks haligned

/-- A block with a prefix and the word that `pack_buffer` makes is initialized if pid and prefix are right. -/
theorem initialized_packed_iff (ha : Page a) (ht : NulFree t) (hshort : t.length < maxPrefixLen) :
    Initialized name pid a ⟨packBuffer a pid len 0, strcpy b.buf 0 t⟩ ↔
      pid ≤ pidMax ∧ t = prefixFor pid name ∧ len % 2 ^ 16 = (prefixFor pid name).length := by
  have htext : cstr pibrBufSize (strcpy b.buf 0 t) = t := by
    rw [maxPrefixLen_eq] at hshort
    exact cstr_of_holds ht (holds_blit _ _ _) (by rw [pibrBufSize_eq]; omega)
  constructor
  · rintro ⟨hword, hprefix⟩
    have hpid : pid ≤ pidMax := by
      by_contra hlarge
      have hzero : pibrPtr 0 = 0 := by decide
      have hptr := hword.ptr
      simp only [packBuffer_large hlarge, hzero] at hptr
      exact absurd ha.1 (by omega)
    have hun := packBuffer_unpacks ha hpid len
    have hidx := hun.idx.symm.trans hword.idx
    exact ⟨hpid, htext.symm.trans hprefix, Int.ofNat_inj.mp hidx⟩
  · rintro ⟨hpid, rfl, hlen⟩
    have hun := packBuffer_unpacks ha hpid len
    rw [hlen] at hun
    exact ⟨hun, htext⟩

end Block

section Install

variable {A : Allocator} {name : List Char} {pid : Nat} {s : State}

/-- **What `init_buffer` makes of a block.** -/
theorem initBufferFor_initialized_iff (hname : NulFree name) (hs : PrefixArray s) {a : Nat} (ha : Page a) :
    Initialized name pid a ((initBufferFor name a pid s).mem a) ↔
      pid ≤ pidMax ∧ PrefixServes name pid s ∨
      s.procid ≠ pid ∧ maxPrefixLen ≤ (prefixFor pid name).length ∧ Initialized name pid a (s.mem a) := by
  by_cases hproc : s.procid = pid
  · -- the prefix is there
    simp only [initBufferFor, reinitProcidFor, PrefixServes, hproc, ↓reduceIte, setWord_mem_self, setBuf_mem_self]
    rw [initialized_packed_iff ha hs.nulFree hs.short]
    simp
  · by_cases hlen : (prefixFor pid name).length < maxPrefixLen
    · -- it is made now
      have hlong : ¬ (prefixFor pid name).length ≥ maxPrefixLen := Nat.not_le.mpr hlen
      have hsmall : (prefixFor pid name).length % 2 ^ 16 = (prefixFor pid name).length := by
        rw [maxPrefixLen_eq] at hlen
        omega
      simp only [initBufferFor, reinitProcidFor, PrefixServes, hproc, hlong, fits_eq hlen, ↓reduceIte, setWord_mem_self,
        setBuf_mem_self]
      rw [initialized_packed_iff ha (prefixFor_nulFree hname) hlen]
      constructor
      · exact fun h => Or.inl ⟨h.1, hlen⟩
      · rintro (⟨hpid, -⟩ | ⟨-, habsurd, -⟩)
        · exact ⟨hpid, rfl, hsmall⟩
        · exact habsurd.elim
    · -- the block is left as it is
      have hlong : (prefixFor pid name).length ≥ maxPrefixLen := Nat.not_lt.mp hlen
      simp only [initBufferFor, reinitProcidFor, PrefixServes, hproc, hlong, ↓reduceIte]
      simp [hproc, hlen]

/-- The state after `memalign` answered. -/
def State.memaligned (s : State) (a : Nat) (p : Pibr) : State :=
  { s with allocs := s.allocs + 1, live := a :: s.live, mem := Function.update s.mem a p }

/-- `alloc_buffer` initializes the block that it gets. -/
theorem allocBufferFor_some {a : Nat} {p : Pibr} (hA : A.memalign s.allocs s.live = some (a, p)) :
    allocBufferFor A name pid s = (a, initBufferFor name a pid (s.memaligned a p)) := by
  have hpage := A.page hA
  simp only [allocBufferFor, hA, hpage.2.2, ne_eq, not_true_eq_false, ↓reduceIte]
  rfl

/-- What that makes of it. -/
theorem memaligned_initialized_iff (hname : NulFree name) (hs : PrefixArray s) {a : Nat} {p : Pibr} (ha : Page a) :
    Initialized name pid a ((initBufferFor name a pid (s.memaligned a p)).mem a) ↔
      pid ≤ pidMax ∧ PrefixServes name pid s ∨
      s.procid ≠ pid ∧ maxPrefixLen ≤ (prefixFor pid name).length ∧ Initialized name pid a p := by
  have hnew : PrefixArray (s.memaligned a p) := ⟨hs.nulFree, hs.short⟩
  have hmem : (s.memaligned a p).mem a = p := by simp [State.memaligned]
  rw [initBufferFor_initialized_iff hname hnew ha, hmem]
  rfl

/-- `swap_buffers` makes what `alloc_buffer` returns current. -/
theorem swapBuffersFor_current {curr : Nat} {s' : State} (h : swapBuffersFor A name curr pid s = (true, s'))
    (hp : s'.procPibr ≠ 0) : ∃ s₁, allocBufferFor A name pid s = (s'.procPibr, s₁) ∧ s'.mem = s₁.mem := by
  unfold swapBuffersFor at h
  split_ifs at h with hcurr
  · cases h
  · rcases halloc : allocBufferFor A name pid s with ⟨a, s₁⟩
    simp only [halloc] at h
    split_ifs at h with ha hsame
    · cases h
      exact absurd rfl hp
    · cases h
      exact ⟨s₁, rfl, rfl⟩
    · cases h

/-- **A buffer is installed only when fully initialized, exactly when the prefix serves.** For every answer of `memalign`
and every content of the block, every name and pid, and every state, whatever `procid`, `prefix` and `prefix_len` are. -/
theorem installs_iff (A : Allocator) (name : List Char) (hname : NulFree name) (pid : Nat) (s : State)
    (hs : PrefixArray s) : Installs A name pid s ↔ Installable A name pid s := by
  constructor
  · intro h a p hA
    have hpage := A.page hA
    have ha : a ≠ 0 := by have := hpage.1; omega
    exact (memaligned_initialized_iff hname hs hpage).mp (h.alloc a _ (allocBufferFor_some hA) ha)
  · intro h
    have halloc : ∀ a s', allocBufferFor A name pid s = (a, s') → a ≠ 0 → Initialized name pid a (s'.mem a) := by
      intro a s' heq ha
      cases hA : A.memalign s.allocs s.live with
      | none =>
        simp only [allocBufferFor, hA, Prod.mk.injEq] at heq
        exact absurd heq.1.symm ha
      | some x =>
        obtain ⟨b, p⟩ := x
        cases (allocBufferFor_some hA).symm.trans heq
        exact (memaligned_initialized_iff hname hs (A.page hA)).mpr (h a p hA)
    refine ⟨halloc, fun curr s' heq hp => ?_⟩
    obtain ⟨s₁, h₁, hmem⟩ := swapBuffersFor_current heq hp
    rw [hmem]
    exact halloc _ _ h₁ hp

/-- A buffer that was made current without an address in its word. -/
theorem not_installs_of_null {curr : Nat} (hswapped : (swapBuffersFor A name curr pid s).1 = true)
    (hp : (swapBuffersFor A name curr pid s).2.procPibr ≠ 0)
    (hnull : pibrPtr ((swapBuffersFor A name curr pid s).2.mem (swapBuffersFor A name curr pid s).2.procPibr).pibr = 0) :
    ¬ Installs A name pid s := by
  intro h
  have hword := (h.swap curr _ (Prod.ext hswapped rfl) hp).word
  exact hp (hword.ptr.symm.trans hnull)

end Install

/-! ## A name that fits, and one that does not -/

theorem init_prefixArray (c : Nat) (mem : Nat → Pibr) : PrefixArray (.init c mem) :=
  ⟨List.not_mem_nil, (by decide : 0 < maxPrefixLen)⟩

/-- A process that has not logged, and memory that is zero. -/
def zeroed : State := .init 0 fun _ => ⟨0, fun _ => nul⟩

/-- The first buffer of a process. -/
theorem short_name_installs : Installs twoPages "app".toList 7 zeroed := by
  refine (installs_iff twoPages "app".toList app.nulFree 7 zeroed (init_prefixArray _ _)).mpr fun a p _ => ?_
  exact Or.inl ⟨by decide, (by decide : (prefixFor 7 "app".toList).length < maxPrefixLen)⟩

/-- A name that the prefix has no room for. -/
def overlongName : List Char := List.replicate 500 'a'

/-- **A process with a name of 500 characters gets a block without a word**, and makes it current. -/
theorem long_name_installed :
    ((swapBuffersFor twoPages overlongName 0 7 zeroed).1 = true ∧
      (swapBuffersFor twoPages overlongName 0 7 zeroed).2.procPibr = 4096 ∧
      ((swapBuffersFor twoPages overlongName 0 7 zeroed).2.mem 4096).pibr = 0) ∧ ¬ Installs twoPages overlongName 7 zeroed := by
  have hnull : pibrPtr ((swapBuffersFor twoPages overlongName 0 7 zeroed).2.mem
      (swapBuffersFor twoPages overlongName 0 7 zeroed).2.procPibr).pibr = 0 := by decide +kernel
  exact ⟨by decide +kernel, not_installs_of_null (by decide +kernel) (by decide +kernel) hnull⟩

end Cosmost.Bblog
