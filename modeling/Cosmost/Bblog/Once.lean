import Cosmost.Bblog.Whole

/-!
# Where every record is

A record that was handed to `_blog` is with its thread until a reservation for it fits, then among the records taken for a
buffer, and from the `__android_log_write` of that buffer on in a text of the log. `Conf.Counted` says that these places
together have each record as often as it was handed over; sound moves keep it (`Conf.Counted.step`). A thread that has
written a text has the buffer still to free: the records of such a buffer count in the log only.
-/

namespace Cosmost.Bblog

open Cosmost.Lib

/-- The record with which a thread goes on: no buffer has it. -/
def Pc.carries : Pc → Option Record
  | .idle | .copy _ _ _ | .release _ | .loadFlush => none
  | .load m | .add m _ | .rollback m _ => some m
  | .check k _ | .alloc k _ | .fallback k _ | .install k _ _ | .discard k _ | .readPid k _ | .sample k _ _
  | .cas k _ _ _ | .close k _ _ | .write k _ | .free k _ => k

/-- The thread has written the buffer, and is to free it. -/
def Pc.freeing (a : Nat) : Pc → Bool
  | .free _ ptr => ptr = a
  | _ => false

theorem carries_next (k : Option Record) : (Pc.next k).carries = k := by
  cases k <;> rfl

theorem freeing_next (k : Option Record) (a : Nat) : (Pc.next k).freeing a = false := by
  cases k <;> rfl

theorem carries_swapped (k : Option Record) (curr : Nat) : (Pc.swapped k curr).carries = k := by
  unfold Pc.swapped
  split_ifs
  · rfl
  · exact carries_next k

theorem freeing_swapped (k : Option Record) (curr a : Nat) : (Pc.swapped k curr).freeing a = false := by
  unfold Pc.swapped
  split_ifs
  · rfl
  · exact freeing_next k a

/-- Whether a thread carries the record. -/
def Pc.has (m : Record) (q : Pc) : Nat := if q.carries = some m then 1 else 0

/-- The record that a move hands to `_blog`. -/
def Move.handed : Move → List Record
  | .blog m => [m]
  | .flush | .run => []

section Conf

variable {τ : Type*} [Fintype τ]

/-- How many threads carry the record. -/
def Conf.carried (c : Conf τ) (m : Record) : Nat := total (Pc.has m) c.pc

/-- How often the record was taken for the buffer at `a`, if its text is still to be written. -/
def Conf.keptAt (c : Conf τ) (m : Record) (a : Nat) : Nat := if ∃ t, (c.pc t).freeing a then 0 else (c.taken a).count m

/-- How often it is in the buffers. -/
def Conf.kept (c : Conf τ) (m : Record) : Nat := ∑ a ∈ c.state.live.toFinset, c.keptAt m a

omit [Fintype τ] in
/-- How often it is in the texts of the log. -/
def Conf.written (c : Conf τ) (m : Record) : Nat := (c.writes.map fun w => w.taken.count m).sum

/-- **Every record is where it should be**, as often as it was handed over. A buffer that is not installed has none. -/
structure Conf.Counted (c : Conf τ) (handed : List Record) : Prop where
  count : ∀ m, handed.count m = c.carried m + c.kept m + c.written m
  making : ∀ t a, (c.pc t).role = .maker a → a ≠ 0 ∧ c.taken a = []
  closing : ∀ t a, (c.pc t).role = .closer a → a ≠ 0

/-! ## What a step does to the places -/

/-- What a step between two points does to the live buffers, to the records taken and to the texts written. -/
inductive Flow (c : Conf τ) (s : State) : Pc → Pc → (Nat → List Record) → List Write → Prop
  /-- The thread goes on with the record that it has, if it has one. -/
  | move {x q : Pc} : q.carries = x.carries → s.live = c.state.live → (∀ a, x.freeing a = false) →
      (∀ a, q.freeing a = false) → Flow c s x q c.taken c.writes
  /-- A reservation fits. -/
  | take {m : Record} {a p idx : Nat} : s.live = c.state.live → a ∈ c.state.live → (∀ u, (c.pc u).freeing a = false) →
      Flow c s (.add m p) (.copy m a idx) (Function.update c.taken a (c.taken a ++ [m])) c.writes
  | make {k : Option Record} {curr a : Nat} : a ∉ c.state.live → s.live = a :: c.state.live →
      Flow c s (.alloc k curr) (.install k curr a) (Function.update c.taken a []) c.writes
  | discard {k : Option Record} {a : Nat} : s.live = c.state.live.erase a → c.state.live.count a ≤ 1 → c.taken a = [] →
      Flow c s (.discard k a) (.next k) c.taken c.writes
  | write {k : Option Record} {a : Nat} {text : List Char} : s.live = c.state.live → a ∈ c.state.live →
      (∀ u, (c.pc u).freeing a = false) → Flow c s (.write k a) (.free k a) c.taken (c.writes ++ [⟨c.taken a, text⟩])
  | free {k : Option Record} {a : Nat} : s.live = c.state.live.erase a → c.state.live.count a ≤ 1 →
      Flow c s (.free k a) (.next k) c.taken c.writes

section Flow

variable {A : Allocator} {e : Process} {c : Conf τ} {t : τ} {q : Pc} {s : State}

/-- A thread that freeing a buffer has it in its charge. -/
theorem role_of_freeing {x : Pc} {a : Nat} (h : x.freeing a = true) : x.role = .closer a := by
  cases x with
  | free k ptr =>
    obtain rfl := of_decide_eq_true h
    rfl
  | _ => cases h

/-- No thread freeing a buffer that is in no thread's charge. -/
theorem freeing_of_closers {a : Nat} (h : (c.ledger a).closers = 0) (u : τ) : (c.pc u).freeing a = false := by
  rw [Bool.eq_false_iff]
  intro hu
  have hle := role_le (Role.closers a) c u
  rw [role_of_freeing hu, Role.closers, if_pos rfl] at hle
  have hclosers : 1 ≤ (c.ledger a).closers := hle
  omega

/-- A buffer in a thread's charge is live, once. -/
theorem Conf.Inv.mem_live (h : c.Inv e) {a : Nat} (ha : a ≠ 0)
    (hr : (c.pc t).role = .maker a ∨ (c.pc t).role = .closer a) : a ∈ c.state.live ∧ c.state.live.count a ≤ 1 := by
  have hone := (h.ledger a ha).one
  have honce := (h.ledger a ha).once
  have hmakers := role_le (Role.makers a) c t
  have hclosers := role_le (Role.closers a) c t
  have hpos : 1 ≤ (c.ledger a).makers ∨ 1 ≤ (c.ledger a).closers := by
    rcases hr with hr | hr
    · rw [hr, Role.makers, if_pos rfl] at hmakers
      exact Or.inl hmakers
    · rw [hr, Role.closers, if_pos rfl] at hclosers
      exact Or.inr hclosers
  exact ⟨List.count_pos_iff.mp (show 0 < (c.ledger a).live by omega), honce⟩

/-- One thread closes a buffer, so no other one freeing it. -/
theorem Conf.Inv.freeing_closer (h : c.Inv e) {a : Nat} (ha : a ≠ 0) (hr : (c.pc t).role = .closer a)
    (ht : (c.pc t).freeing a = false) (u : τ) : (c.pc u).freeing a = false := by
  rw [Bool.eq_false_iff]
  intro hu
  have hut : u ≠ t := by
    rintro rfl
    rw [hu] at ht
    cases ht
  have htwo := add_le_total (Role.closers a) c.roles hut
  rw [Conf.roles, Conf.roles, role_of_freeing hu, hr, Role.closers, if_pos rfl] at htwo
  have hclosers : 2 ≤ (c.ledger a).closers := htwo
  have hone := (h.ledger a ha).one
  have honce := (h.ledger a ha).once
  omega

/-- **What a sound step does.** -/
theorem Conf.Inv.flow (h : c.Inv e) (he : e.Fits) {handed : List Record} (hc : c.Counted handed)
    (hs : c.SoundAt (c.pc t)) (hok : exec A e (c.pc t) c.state = .ok (q, s)) :
    Flow c s (c.pc t) q (noteTaken c.taken (c.pc t) q) (noteWrites c.taken c.state c.writes (c.pc t)) := by
  generalize hx : c.pc t = x at hs hok ⊢
  cases x with
  | add m p =>
    rcases h.exec_add (A := A) hs with ⟨err, herr⟩ | ⟨hopen, ⟨-, hex⟩ | ⟨-, hex⟩⟩
    · cases herr.symm.trans hok
    · cases hex.symm.trans hok
      exact .take rfl (List.count_pos_iff.mp hopen.live) (freeing_of_closers hopen.closers)
    · cases hex.symm.trans hok
      exact .move rfl rfl (fun _ => rfl) fun _ => rfl
  | alloc k curr =>
    rcases h.globals.exec_alloc he A k curr with ⟨n, hex⟩ | ⟨a, s', hf, hex⟩
    · cases hex.symm.trans hok
      exact .move rfl rfl (fun _ => rfl) fun _ => rfl
    · cases hex.symm.trans hok
      exact .make hf.fresh hf.live
  | discard k new =>
    cases hok
    have hrole : (c.pc t).role = .maker new := by rw [hx]; rfl
    obtain ⟨hnew, hnone⟩ := hc.making t new hrole
    exact .discard rfl (h.mem_live hnew (Or.inl hrole)).2 hnone
  | write k ptr =>
    cases hok
    have hrole : (c.pc t).role = .closer ptr := by rw [hx]; rfl
    have hptr := hc.closing t ptr hrole
    exact .write rfl (h.mem_live hptr (Or.inr hrole)).1 (h.freeing_closer hptr hrole (by rw [hx]; rfl))
  | free k ptr =>
    cases hok
    have hrole : (c.pc t).role = .closer ptr := by rw [hx]; rfl
    exact .free rfl (h.mem_live (hc.closing t ptr hrole) (Or.inr hrole)).2
  | release ptr =>
    obtain ⟨rfl, rfl⟩ := exec_release_ok hok
    exact .move rfl rfl (fun _ => rfl) fun _ => rfl
  | rollback m ptr =>
    obtain ⟨rfl, rfl⟩ := exec_rollback_ok hok
    exact .move rfl rfl (fun _ => rfl) fun _ => rfl
  | check k curr =>
    cases hok
    split_ifs
    · exact .move rfl rfl (fun _ => rfl) fun _ => rfl
    · exact .move (carries_next k) rfl (fun _ => rfl) (freeing_next k)
  | fallback k curr =>
    cases hok
    exact .move (carries_swapped k curr) rfl (fun _ => rfl) (freeing_swapped k curr)
  | install k curr new =>
    simp only [exec] at hok
    split_ifs at hok <;> cases hok
    · exact .move (carries_swapped k curr) rfl (fun _ => rfl) (freeing_swapped k curr)
    · exact .move rfl rfl (fun _ => rfl) fun _ => rfl
  | readPid k ptr =>
    rw [exec_readPid_eq] at hok
    cases hok
    split_ifs
    · exact .move rfl rfl (fun _ => rfl) fun _ => rfl
    · exact .move (carries_next k) rfl (fun _ => rfl) (freeing_next k)
  | sample k ptr pid =>
    cases hok
    split_ifs
    · exact .move (carries_next k) rfl (fun _ => rfl) (freeing_next k)
    · exact .move rfl rfl (fun _ => rfl) fun _ => rfl
  | cas k ptr pid idx =>
    simp only [exec] at hok
    split_ifs at hok <;> cases hok <;> exact .move rfl rfl (fun _ => rfl) fun _ => rfl
  | close k ptr idx =>
    simp only [exec] at hok
    split_ifs at hok
    cases hok
    exact .move rfl rfl (fun _ => rfl) fun _ => rfl
  | _ =>
    cases hok
    exact .move rfl rfl (fun _ => rfl) fun _ => rfl

end Flow

/-! ## The places after a step -/

section Places

variable {c : Conf τ} {t : τ} {q : Pc} {s : State} {killed : Bool} {taken : Nat → List Record}
  {writes : List Write} (m : Record)

/-- A live buffer among the others. -/
theorem kept_eq_add {a : Nat} (ha : a ∈ c.state.live) :
    c.kept m = c.keptAt m a + ∑ b ∈ c.state.live.toFinset.erase a, c.keptAt m b :=
  (Finset.add_sum_erase _ _ (List.mem_toFinset.mpr ha)).symm

/-- A block that is freed is gone. -/
theorem toFinset_erase {a : Nat} {live : List Nat} (ha : live.count a ≤ 1) :
    (live.erase a).toFinset = live.toFinset.erase a := by
  ext b
  rw [List.mem_toFinset, Finset.mem_erase, List.mem_toFinset]
  by_cases hb : b = a
  · subst hb
    have hnot : b ∉ live.erase b := by
      rw [← List.count_eq_zero, List.count_erase_self]
      omega
    simp [hnot]
  · rw [List.mem_erase_of_ne hb]
    exact ⟨fun h => ⟨hb, h⟩, fun h => h.2⟩

theorem keptAt_freed {a : Nat} {u : τ} (hu : (c.pc u).freeing a = true) : c.keptAt m a = 0 := if_pos ⟨u, hu⟩

theorem keptAt_unfreed {a : Nat} (hu : ∀ u, (c.pc u).freeing a = false) : c.keptAt m a = (c.taken a).count m := by
  refine if_neg ?_
  rintro ⟨u, h⟩
  rw [hu u] at h
  cases h

/-- A buffer without records has none of this one. -/
theorem keptAt_nil {a : Nat} (ha : c.taken a = []) : c.keptAt m a = 0 := by
  rw [Conf.keptAt, ha]
  split_ifs <;> rfl

/-- Two configurations with the same live buffers, but for what one of them has of the record. -/
theorem kept_change {c' : Conf τ} {a : Nat} (ha : a ∈ c.state.live) (hlive : c'.state.live = c.state.live)
    (hother : ∀ b, b ≠ a → c'.keptAt m b = c.keptAt m b) : c'.kept m + c.keptAt m a = c.kept m + c'.keptAt m a := by
  have hrest : ∑ b ∈ c.state.live.toFinset.erase a, c'.keptAt m b = ∑ b ∈ c.state.live.toFinset.erase a, c.keptAt m b :=
    Finset.sum_congr rfl fun b hb => hother b (Finset.ne_of_mem_erase hb)
  rw [kept_eq_add m ha, kept_eq_add (c := c') m (hlive ▸ ha), hlive, hrest]
  omega

/-- A buffer that is freed had none of the record to lose. -/
theorem kept_freed {c' : Conf τ} {a : Nat} (hlive : c'.state.live = c.state.live.erase a)
    (ha : c.state.live.count a ≤ 1) (hnone : c.keptAt m a = 0)
    (hother : ∀ b, b ≠ a → c'.keptAt m b = c.keptAt m b) : c'.kept m = c.kept m := by
  rw [Conf.kept, Conf.kept, hlive, toFinset_erase ha,
    Finset.sum_congr rfl fun b hb => hother b (Finset.ne_of_mem_erase hb)]
  exact Finset.sum_erase _ hnone

variable [DecidableEq τ]

/-- What the thread carries is what changes. -/
theorem carried_update : (⟨s, Function.update c.pc t q, killed, taken, writes⟩ : Conf τ).carried m + (c.pc t).has m =
    c.carried m + q.has m :=
  total_update (Pc.has m) c.pc t q

/-- A buffer that the step leaves alone has what it had. -/
theorem keptAt_same {a : Nat} (htaken : taken a = c.taken a) (hfrees : q.freeing a = (c.pc t).freeing a) :
    (⟨s, Function.update c.pc t q, killed, taken, writes⟩ : Conf τ).keptAt m a = c.keptAt m a := by
  have hiff : (∃ u, (Function.update c.pc t q u).freeing a) ↔ ∃ u, (c.pc u).freeing a := by
    refine exists_congr fun u => ?_
    by_cases hut : u = t
    · subst hut
      rw [Function.update_self, hfrees]
    · rw [Function.update_of_ne hut]
  simp only [Conf.keptAt, htaken, hiff]

/-- **A step loses no record and doubles none.** -/
theorem Flow.count {x : Pc} (h : Flow c s x q taken writes) (hx : c.pc t = x) (c' : Conf τ)
    (hc' : c' = ⟨s, Function.update c.pc t q, killed, taken, writes⟩) :
    c'.carried m + c'.kept m + c'.written m = c.carried m + c.kept m + c.written m := by
  have hcarried : c'.carried m + x.has m = c.carried m + q.has m := by
    rw [hc', ← hx]
    exact carried_update m
  have hsame : ∀ {b : Nat}, taken b = c.taken b → q.freeing b = x.freeing b → c'.keptAt m b = c.keptAt m b := by
    intro b htaken hfrees
    rw [hc']
    exact keptAt_same m htaken (hx ▸ hfrees)
  cases h with
  | move hcarries hlive hxf hqf =>
    have hhas : q.has m = x.has m := by rw [Pc.has, Pc.has, hcarries]
    have hkept : c'.kept m = c.kept m := by
      have hlive' : c'.state.live = c.state.live := by rw [hc', hlive]
      rw [Conf.kept, Conf.kept, hlive']
      exact Finset.sum_congr rfl fun b _ => hsame rfl ((hqf b).trans (hxf b).symm)
    have hwritten : c'.written m = c.written m := by rw [hc']; rfl
    omega
  | @take m' a p idx hlive ha hf =>
    have hkept : c'.kept m + c.keptAt m a = c.kept m + c'.keptAt m a := kept_change m ha (by rw [hc', hlive])
      fun b hb => hsame (Function.update_of_ne hb ..) rfl
    have hbefore := keptAt_unfreed m hf
    have hafter : c'.keptAt m a = (c.taken a).count m + (Pc.add m' p).has m := by
      rw [keptAt_unfreed (c := c') m fun u => ?_, hc']
      · simp [Pc.has, Pc.carries, List.count_singleton]
      · rw [hc']
        by_cases hut : u = t
        · subst hut
          simp [Pc.freeing]
        · simpa [hut] using hf u
    have hcopy : (Pc.copy m' a idx).has m = 0 := rfl
    have hwritten : c'.written m = c.written m := by rw [hc']; rfl
    omega
  | @make k curr a ha hlive =>
    have hhas : (Pc.install k curr a).has m = (Pc.alloc k curr).has m := rfl
    have hnil : c'.taken a = [] := by simp [hc']
    have hkept : c'.kept m = c.kept m := by
      have hlive' : c'.state.live = a :: c.state.live := by rw [hc', hlive]
      rw [Conf.kept, hlive', List.toFinset_cons, Finset.sum_insert (by simpa using ha), keptAt_nil m hnil, Nat.zero_add]
      refine Finset.sum_congr rfl fun b hb => hsame (Function.update_of_ne ?_ ..) rfl
      rintro rfl
      exact ha (List.mem_toFinset.mp hb)
    have hwritten : c'.written m = c.written m := by rw [hc']; rfl
    omega
  | @discard k a hlive ha hnil =>
    have hhas : (Pc.next k).has m = (Pc.discard k a).has m := by
      rw [Pc.has, carries_next]
      rfl
    have hkept : c'.kept m = c.kept m := kept_freed m (by rw [hc', hlive]) ha (keptAt_nil m hnil)
      fun b _ => hsame rfl (freeing_next k b)
    have hwritten : c'.written m = c.written m := by rw [hc']; rfl
    omega
  | @write k a text hlive ha hf =>
    have hhas : (Pc.free k a).has m = (Pc.write k a).has m := rfl
    have hkept : c'.kept m + c.keptAt m a = c.kept m + c'.keptAt m a := kept_change m ha (by rw [hc', hlive])
      fun b hb => hsame rfl (decide_eq_false (Ne.symm hb))
    have hbefore := keptAt_unfreed m hf
    have hafter : c'.keptAt m a = 0 := by
      refine keptAt_freed (c := c') (u := t) m ?_
      rw [hc']
      simp [Pc.freeing]
    have hwritten : c'.written m = c.written m + (c.taken a).count m := by
      rw [hc']
      simp [Conf.written]
    omega
  | @free k a hlive ha =>
    have hhas : (Pc.next k).has m = (Pc.free k a).has m := by
      rw [Pc.has, carries_next]
      rfl
    have hnone : c.keptAt m a = 0 := by
      refine keptAt_freed (u := t) m ?_
      rw [hx]
      exact decide_eq_true rfl
    have hkept : c'.kept m = c.kept m := kept_freed m (by rw [hc', hlive]) ha hnone
      fun b hb => hsame rfl ((freeing_next k b).trans (decide_eq_false (Ne.symm hb)).symm)
    have hwritten : c'.written m = c.written m := by rw [hc']; rfl
    omega

end Places

/-! ## Who is in charge of a buffer -/

section Charge

variable {A : Allocator} {e : Process} {c : Conf τ} {t : τ} {q : Pc} {s s' : State}

/-- A thread that has a buffer in its charge had it before, or has just allocated it or taken its word away. -/
theorem exec_charge {x : Pc} {a : Nat} (hg : Globals e s) (he : e.Fits) (hok : exec A e x s = .ok (q, s'))
    (hq : q.role = .maker a ∨ q.role = .closer a) :
    x.role = q.role ∨ (a ≠ 0 ∧ ∃ k curr, x = .alloc k curr ∧ q = .install k curr a) ∨
      ∃ k pid idx, x = .cas k a pid idx ∧ q = .close k a idx := by
  have hnext : ∀ k, q ≠ .next k := by
    rintro k rfl
    simp [role_next] at hq
  have hswapped : ∀ k curr, q ≠ .swapped k curr := by
    rintro k curr rfl
    unfold Pc.swapped at hq
    split_ifs at hq with hcurr
    · simp [Pc.role] at hq
    · simp [role_next] at hq
  cases x with
  | alloc k curr =>
    rcases hg.exec_alloc he A k curr with ⟨n, hex⟩ | ⟨b, s₁, hf, hex⟩ <;> cases hex.symm.trans hok
    · simp [Pc.role] at hq
    · obtain rfl : b = a := by simpa [Pc.role] using hq
      have hpos := hf.page.1
      exact Or.inr (Or.inl ⟨by omega, k, curr, rfl, rfl⟩)
  | install k curr new =>
    simp only [exec] at hok
    split_ifs at hok <;> cases hok
    · exact absurd rfl (hswapped k curr)
    · exact Or.inl rfl
  | cas k ptr pid idx =>
    simp only [exec] at hok
    split_ifs at hok <;> cases hok
    · obtain rfl : ptr = a := by simpa [Pc.role] using hq
      exact Or.inr (Or.inr ⟨k, pid, idx, rfl, rfl⟩)
    · exact Or.inl rfl
  | close k ptr idx =>
    simp only [exec] at hok
    split_ifs at hok
    cases hok
    exact Or.inl rfl
  | write k ptr =>
    cases hok
    exact Or.inl rfl
  | add m p => obtain ⟨-, rfl | rfl⟩ := exec_add_ok hok <;> simp [Pc.role] at hq
  | release ptr =>
    obtain ⟨-, rfl⟩ := exec_release_ok hok
    simp [Pc.role] at hq
  | rollback m ptr =>
    obtain ⟨-, rfl⟩ := exec_rollback_ok hok
    simp [Pc.role] at hq
  | check k curr =>
    cases hok
    split_ifs at hq hnext
    · simp [Pc.role] at hq
    · exact absurd rfl (hnext k)
  | readPid k ptr =>
    rw [exec_readPid_eq] at hok
    cases hok
    split_ifs at hq hnext
    · simp [Pc.role] at hq
    · exact absurd rfl (hnext k)
  | sample k ptr pid =>
    cases hok
    split_ifs at hq hnext
    · exact absurd rfl (hnext k)
    · simp [Pc.role] at hq
  | fallback k curr =>
    cases hok
    exact absurd rfl (hswapped k curr)
  | discard k ptr | free k ptr =>
    cases hok
    exact absurd rfl (hnext k)
  | _ =>
    cases hok
    simp [Pc.role] at hq

/-- A record is taken for no buffer that a thread has made and not installed. -/
theorem Conf.Inv.taken_made (h : c.Inv e) (hs : c.SoundAt (c.pc t)) (hok : exec A e (c.pc t) c.state = .ok (q, s))
    {u : τ} {a : Nat} (hu : (c.pc u).role = .maker a) (hnone : c.taken a = []) :
    noteTaken c.taken (c.pc t) q a = [] := by
  rcases noteTaken_cases c.taken (c.pc t) q a with heq | ⟨m, p, m', idx, hx, rfl, -⟩ | ⟨_, _, _, _, -, -, heq⟩
  · rw [heq, hnone]
  · rw [hx] at hok hs
    rcases h.exec_add (A := A) hs with ⟨x, herr⟩ | ⟨hopen, ⟨-, hex⟩ | ⟨-, hex⟩⟩
    · cases herr.symm.trans hok
    · cases hex.symm.trans hok
      have hle := role_le (Role.makers a) c u
      rw [hu, Role.makers, if_pos rfl, show total (Role.makers a) c.roles = 0 from hopen.makers] at hle
      omega
    · cases hex.symm.trans hok
  · exact heq

variable [DecidableEq τ] {c' : Conf τ} {handed : List Record}

/-- **A sound step keeps the records where they should be.** -/
theorem Conf.Counted.run (hc : c.Counted handed) (h : c.Inv e) (he : e.Fits) (hs : c.SoundAt (c.pc t)) :
    (c.run A e t).Counted handed := by
  cases hok : exec A e (c.pc t) c.state with
  | error x =>
    rw [run_error hok]
    exact ⟨hc.count, hc.making, hc.closing⟩
  | ok x =>
    obtain ⟨q, s⟩ := x
    have hflow := h.flow he hc hs hok
    have hcharge : ∀ {a : Nat}, q.role = .maker a ∨ q.role = .closer a → _ := fun hq => exec_charge h.globals he hok hq
    have hmade : ∀ {u : τ} {a : Nat}, (c.pc u).role = .maker a → a ≠ 0 ∧ noteTaken c.taken (c.pc t) q a = [] := by
      intro u a hu
      obtain ⟨ha, hnone⟩ := hc.making u a hu
      exact ⟨ha, h.taken_made hs hok hu hnone⟩
    rw [run_ok hok]
    refine ⟨fun m => (hc.count m).trans (hflow.count m rfl _ rfl).symm, fun u a hu => ?_, fun u a hu => ?_⟩
    · by_cases hut : u = t
      · subst hut
        simp only [Function.update_self] at hu
        rcases hcharge (Or.inl hu) with hx | ⟨ha, k, curr, hx, rfl⟩ | ⟨_, _, _, -, rfl⟩
        · exact hmade (hx.trans hu)
        · refine ⟨ha, ?_⟩
          rw [hx]
          exact Function.update_self ..
        · cases hu
      · simp only [Function.update_of_ne hut] at hu
        exact hmade hu
    · by_cases hut : u = t
      · subst hut
        simp only [Function.update_self] at hu
        rcases hcharge (Or.inr hu) with hx | ⟨ha, -⟩ | ⟨k, pid, idx, hx, -⟩
        · exact hc.closing u a (hx.trans hu)
        · exact ha
        · have hread := h.read u
          rw [hx] at hread
          exact hread.1
      · simp only [Function.update_of_ne hut] at hu
        exact hc.closing u a hu

/-- A call brings the record that the thread then carries. -/
theorem Conf.Counted.goto (hc : c.Counted handed) (hidle : c.pc t = .idle) (hq : q.role = .outside)
    (hfrees : ∀ a, q.freeing a = false) : (c.goto t q).Counted (handed ++ q.carries.toList) := by
  have hrole : ∀ u, ((c.goto t q).pc u).role = (c.pc u).role := by
    intro u
    by_cases hut : u = t
    · subst hut
      simp only [Conf.goto, Function.update_self, hq, hidle]
      rfl
    · simp only [Conf.goto, Function.update_of_ne hut]
  refine ⟨fun m => ?_, fun u a hu => hc.making u a ((hrole u).symm.trans hu),
    fun u a hu => hc.closing u a ((hrole u).symm.trans hu)⟩
  have hcarried : (c.goto t q).carried m + (c.pc t).has m = c.carried m + q.has m := carried_update m
  have hkept : (c.goto t q).kept m = c.kept m := by
    refine Finset.sum_congr rfl fun a _ => keptAt_same m rfl ?_
    rw [hfrees, hidle]
    rfl
  have hwritten : (c.goto t q).written m = c.written m := rfl
  have hnone : (c.pc t).has m = 0 := by rw [hidle]; rfl
  have hhas : q.carries.toList.count m = q.has m := by
    rw [Pc.has]
    cases q.carries with
    | none => rfl
    | some m' => simp [List.count_singleton]
  have hcount := hc.count m
  rw [List.count_append, hhas]
  omega

/-- **Sound moves keep the records where they should be.** -/
theorem Conf.Counted.step {x : τ × Move} (hc : c.Counted handed) (h : c.Inv e) (he : e.Fits) (hs : c.Sound x)
    (hstep : c.step A e x = some c') : c'.Counted (handed ++ x.2.handed) := by
  obtain ⟨t, mv⟩ := x
  cases mv with
  | blog m =>
    simp only [Conf.step] at hstep
    split_ifs at hstep with hkilled hidle
    cases hstep
    exact hc.goto hidle rfl fun _ => rfl
  | flush =>
    simp only [Conf.step] at hstep
    split_ifs at hstep with hkilled hidle
    cases hstep
    exact hc.goto hidle rfl fun _ => rfl
  | run =>
    rw [step_run hstep, Move.handed, List.append_nil]
    exact hc.run h he (hs rfl)

omit [DecidableEq τ] in
/-- After `bblog_init` there is no record. -/
theorem Conf.Started.counted (h : c.Started A e) : c.Counted [] := by
  obtain ⟨cntr, mem, rfl⟩ := h
  refine ⟨fun m => ?_, fun u a hu => (by cases hu), fun u a hu => (by cases hu)⟩
  have hcarried : Conf.carried (⟨bblogInit A e (.init cntr mem), fun _ => .idle, false, fun _ => [], []⟩ : Conf τ) m =
      0 := total_eq_zero fun _ => rfl
  have hkept : Conf.kept (⟨bblogInit A e (.init cntr mem), fun _ => .idle, false, fun _ => [], []⟩ : Conf τ) m = 0 :=
    Finset.sum_eq_zero fun a _ => keptAt_nil m rfl
  rw [hcarried, hkept]
  rfl

/-- What the threads do, with the records that were handed to `_blog`. -/
def handStep (A : Allocator) (e : Process) (c : Conf τ × List Record) (x : τ × Move) : Option (Conf τ × List Record) :=
  (c.1.step A e x).map fun c' => (c', c.2 ++ x.2.handed)

/-- After `bblog_init`, with none. -/
def HandStarted (A : Allocator) (e : Process) (c : Conf τ × List Record) : Prop := c.1.Started A e ∧ c.2 = []

omit [Fintype τ] in
theorem handStep_eq {x : τ × Move} {c c' : Conf τ × List Record} (h : handStep A e c x = some c') :
    c.1.step A e x = some c'.1 ∧ c'.2 = c.2 ++ x.2.handed := by
  obtain ⟨c₁, hstep, rfl⟩ := Option.map_eq_some_iff.mp h
  exact ⟨hstep, rfl⟩

end Charge

end Conf

/-! ## Whole runs -/

theorem appThreads_handStarted (n : Nat) : HandStarted twoPages app (appThreads n, []) := ⟨appThreads_started n, rfl⟩

end Cosmost.Bblog
