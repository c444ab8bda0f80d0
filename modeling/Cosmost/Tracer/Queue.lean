import Cosmost.Lib.Ring
import Cosmost.Lib.Run
import Cosmost.Tracer.Defs
import Mathlib.Data.Fintype.Basic

/-!
# The queue of expired buffers (`list.h`, `tracer.h`)

`enqueueTraceBuffer` adds a node to the list of the tracer with `list_add_tail`, without a lock. Here each of its loads and
stores is a step of one thread; `Queue.step` interleaves any number of threads. Where the link of the head that a thread has
read is still the link of the head when the thread replaces it, and a node is linked only after its own link `next` was set
(`Queue.Good`), the list is a ring of all nodes as soon as no thread is adding (`Queue.Sound`); where one step is not like
that, a node is lost for good (`Queue.Lost`).
-/

namespace Cosmost.Tracer

open Cosmost.Lib

/-- Where a thread stands in `list_add_tail(neew, head)`, that is `__list_add(neew, head->prev, head)`. -/
inductive Adding (α : Type*)
  | idle
  /-- Before it reads `head->prev`. -/
  | read (neew : α)
  /-- Before `next->prev = neew`. -/
  | back (neew prev : α)
  /-- Before `neew->next = next`. -/
  | forth (neew prev : α)
  /-- Before `neew->prev = prev`. -/
  | own (neew prev : α)
  /-- Before `prev->next = neew`. -/
  | link (neew prev : α)
  deriving DecidableEq

/-- The list, and the threads that add to it. The last three fields are not part of the program: what the call that adds a
node has read, the nodes so far, and those that the link `prev` of the head was set to. -/
structure Queue (τ α : Type*) where
  heap : α → Links α
  pc : τ → Adding α
  before : α → α
  nodes : List α
  added : List α

/-- A call with a node, or the next step. -/
inductive QueueMove (α : Type*)
  | call (neew : α)
  | run
  deriving DecidableEq

section Queue

variable {τ α : Type*} [DecidableEq τ] [DecidableEq α]

/-- `INIT_LIST_HEAD`, with no thread adding. -/
def Queue.init (head : α) (heap : α → Links α) : Queue τ α :=
  ⟨setPrev (setNext heap head head) head head, fun _ => .idle, fun _ => head, [], []⟩

/-- The thread is at another point. -/
def Queue.goto (c : Queue τ α) (t : τ) (q : Adding α) : Queue τ α := { c with pc := Function.update c.pc t q }

/-- The moves; one that is not possible changes nothing. A node is new. -/
def Queue.step (head : α) (c : Queue τ α) : τ × QueueMove α → Queue τ α
  | (t, move) =>
    match c.pc t, move with
    | .idle, .call neew =>
      if neew ∈ head :: c.nodes then c else { c.goto t (.read neew) with nodes := c.nodes ++ [neew] }
    | .read neew, .run =>
      { c.goto t (.back neew (c.heap head).prev) with before := Function.update c.before neew (c.heap head).prev }
    | .back neew prev, .run =>
      { c.goto t (.forth neew prev) with heap := setPrev c.heap head neew, added := c.added ++ [neew] }
    | .forth neew prev, .run => { c.goto t (.own neew prev) with heap := setNext c.heap neew head }
    | .own neew prev, .run => { c.goto t (.link neew prev) with heap := setPrev c.heap neew prev }
    | .link neew prev, .run => { c.goto t .idle with heap := setNext c.heap prev neew }
    | _, _ => c

/-- The node that a thread adds. -/
def Adding.node : Adding α → Option α
  | .idle => none
  | .read neew | .back neew _ | .forth neew _ | .own neew _ | .link neew _ => some neew

/-- The node is added, and not yet linked. -/
def Adding.late (n : α) : Adding α → Prop
  | .forth neew _ | .own neew _ | .link neew _ => neew = n
  | _ => False

/-- The thread is to set the node's own link `next`. -/
def Adding.blank (n : α) : Adding α → Prop
  | .forth neew _ => neew = n
  | _ => False

/-- The thread is to set its link `prev`. -/
def Adding.unset (n : α) : Adding α → Prop
  | .forth neew _ | .own neew _ => neew = n
  | _ => False

omit [DecidableEq α] in
theorem node_of_late {q : Adding α} {n : α} (h : q.late n) : q.node = some n := by
  cases q with
  | forth m p | own m p | link m p => exact congrArg some h
  | _ => exact absurd h id

/-- At this point a thread replaces the link of the head that it has read, or links its node behind one whose own link
`next` was set. -/
def Queue.GoodAt (head : α) (c : Queue τ α) : Adding α → Prop
  | .back _ prev => (c.heap head).prev = prev
  | .link _ prev => ∀ u, ¬ (c.pc u).blank prev
  | _ => True

/-- A good step. -/
def Queue.Good (head : α) (c : Queue τ α) (e : τ × QueueMove α) : Prop := e.2 = .run → c.GoodAt head (c.pc e.1)

/-- A node that is still to be linked. -/
def Queue.Pending (c : Queue τ α) (n : α) : Prop := ∃ t, (c.pc t).late n

/-! ## What a move does -/

/-- What a move of the thread leaves. -/
inductive Acts (head : α) (c : Queue τ α) (t : τ) : QueueMove α → Queue τ α → Prop
  | stay {move : QueueMove α} : Acts head c t move c
  | call {neew : α} : c.pc t = .idle → neew ∉ head :: c.nodes →
      Acts head c t (.call neew) { c.goto t (.read neew) with nodes := c.nodes ++ [neew] }
  | read {neew : α} : c.pc t = .read neew → Acts head c t .run
      { c.goto t (.back neew (c.heap head).prev) with before := Function.update c.before neew (c.heap head).prev }
  | back {neew prev : α} : c.pc t = .back neew prev → Acts head c t .run
      { c.goto t (.forth neew prev) with heap := setPrev c.heap head neew, added := c.added ++ [neew] }
  | forth {neew prev : α} : c.pc t = .forth neew prev →
      Acts head c t .run { c.goto t (.own neew prev) with heap := setNext c.heap neew head }
  | own {neew prev : α} : c.pc t = .own neew prev →
      Acts head c t .run { c.goto t (.link neew prev) with heap := setPrev c.heap neew prev }
  | link {neew prev : α} : c.pc t = .link neew prev →
      Acts head c t .run { c.goto t .idle with heap := setNext c.heap prev neew }

theorem step_acts (head : α) (c : Queue τ α) (t : τ) (move : QueueMove α) :
    Acts head c t move (c.step head (t, move)) := by
  cases hpc : c.pc t <;> cases move <;> simp only [Queue.step, hpc]
  case idle.call neew =>
    split_ifs with hold
    · exact .stay
    · exact .call hpc hold
  case read.run => exact .read hpc
  case back.run => exact .back hpc
  case forth.run => exact .forth hpc
  case own.run => exact .own hpc
  case link.run => exact .link hpc
  all_goals exact .stay

/-! ## What holds in every run -/

/-- What holds of a thread at a point. -/
def Queue.At (head : α) (c : Queue τ α) : Adding α → Prop
  | .idle => True
  | .read neew => neew ∈ c.nodes ∧ neew ∉ c.added
  | .back neew prev => (neew ∈ c.nodes ∧ neew ∉ c.added) ∧ c.before neew = prev ∧ prev ∈ head :: c.added
  | .forth neew prev | .own neew prev | .link neew prev =>
    neew ∈ c.added ∧ c.before neew = prev ∧ prev ∈ head :: c.added

/-- What holds in every run: who has which node, and what the links of the head and the links `next` lead to. -/
structure Queue.Base (head : α) (c : Queue τ α) : Prop where
  nodup : (head :: c.nodes).Nodup
  added : c.added.Nodup
  within : c.added ⊆ c.nodes
  points : ∀ t, c.At head (c.pc t)
  one : ∀ t u n, (c.pc t).node = some n → (c.pc u).node = some n → t = u
  coming : ∀ n ∈ c.nodes, n ∉ c.added → ∃ t, (c.pc t).node = some n
  before : ∀ n ∈ c.added, c.before n ∈ head :: c.added
  first : (c.heap head).prev ∈ head :: c.added
  next : ∀ y ∈ head :: c.added, (∀ t, ¬ (c.pc t).blank y) →
    (c.heap y).next = head ∨ (c.heap y).next ∈ c.added ∧ c.before (c.heap y).next = y

section Base

variable {head : α} {c : Queue τ α} {t u : τ} {n p : α}

omit [DecidableEq τ] [DecidableEq α] in
theorem Queue.Base.ne_head (h : c.Base head) (hn : n ∈ c.nodes) : n ≠ head := by
  rintro rfl
  exact (List.nodup_cons.mp h.nodup).1 hn

omit [DecidableEq α] in
/-- What some thread has, some thread has after one of them went on, if that one keeps it. -/
theorem exists_update {P : Adding α → Prop} {q : Adding α} (hq : P (c.pc t) → P q) (h : ∃ u, P (c.pc u)) :
    ∃ u, P (Function.update c.pc t q u) := by
  obtain ⟨u, hu⟩ := h
  by_cases hut : u = t
  · subst hut
    exact ⟨u, by rw [Function.update_self]; exact hq hu⟩
  · exact ⟨u, by rwa [Function.update_of_ne hut]⟩

omit [DecidableEq α] in
/-- And the other way round. -/
theorem exists_of_update {P : Adding α → Prop} {q : Adding α} (hq : P q → P (c.pc t))
    (h : ∃ u, P (Function.update c.pc t q u)) : ∃ u, P (c.pc u) := by
  obtain ⟨u, hu⟩ := h
  by_cases hut : u = t
  · subst hut
    rw [Function.update_self] at hu
    exact ⟨u, hq hu⟩
  · rw [Function.update_of_ne hut] at hu
    exact ⟨u, hu⟩

omit [DecidableEq τ] [DecidableEq α] in
/-- A thread that adds a node was called with it. -/
theorem Queue.Base.node_mem (h : c.Base head) (hn : (c.pc t).node = some n) : n ∈ c.nodes := by
  have hat := h.points t
  generalize c.pc t = x at hat hn
  cases x with
  | idle => cases hn
  | read m =>
    cases hn
    exact hat.1
  | back m p =>
    cases hn
    exact hat.1.1
  | _ =>
    cases hn
    exact h.within hat.1

omit [DecidableEq α] in
/-- Where a thread keeps its node, each node has one thread, and those to come have theirs. -/
theorem Queue.Base.one_of (h : c.Base head) {q : Adding α} (hq : q.node = (c.pc t).node) :
    (∀ u v n, (Function.update c.pc t q u).node = some n → (Function.update c.pc t q v).node = some n → u = v) ∧
      ∀ n ∈ c.nodes, n ∉ c.added → ∃ u, (Function.update c.pc t q u).node = some n := by
  have hsame : ∀ u, (Function.update c.pc t q u).node = (c.pc u).node := by
    intro u
    by_cases hu : u = t
    · subst hu
      rw [Function.update_self, hq]
    · rw [Function.update_of_ne hu]
  refine ⟨fun u v n hu hv => h.one u v n ((hsame u).symm.trans hu) ((hsame v).symm.trans hv), fun n hn hn' => ?_⟩
  obtain ⟨u, hu⟩ := h.coming n hn hn'
  exact ⟨u, (hsame u).trans hu⟩

omit [DecidableEq α] in
/-- A thread is called with a new node. -/
theorem Queue.Base.call (h : c.Base head) (hidle : c.pc t = .idle) (hnew : n ∉ head :: c.nodes) :
    ({ c.goto t (.read n) with nodes := c.nodes ++ [n] } : Queue τ α).Base head := by
  have hnodes : n ∉ c.nodes := fun hn => hnew (List.mem_cons_of_mem _ hn)
  have hnone : ∀ u, (c.pc u).node ≠ some n := fun u hu => hnodes (h.node_mem hu)
  have hpoints : ∀ q, c.At head q → (⟨c.heap, c.pc, c.before, c.nodes ++ [n], c.added⟩ : Queue τ α).At head q := by
    intro q hq
    cases q with
    | idle => trivial
    | read m => exact ⟨List.mem_append_left _ hq.1, hq.2⟩
    | back m p => exact ⟨⟨List.mem_append_left _ hq.1.1, hq.1.2⟩, hq.2⟩
    | _ => exact hq
  refine ⟨?_, h.added, fun m hm => List.mem_append_left _ (h.within hm), ?_, fun u v m hu hv => ?_, fun m hm hm' => ?_,
    h.before, h.first, fun y hy hblank => h.next y hy fun u hu => ?_⟩
  · rw [← List.cons_append, ← List.concat_eq_append]
    exact h.nodup.concat hnew
  · refine (Function.forall_update_iff c.pc fun _ q => _).mpr ⟨⟨by simp, fun hm => hnodes (h.within hm)⟩, ?_⟩
    exact fun u _ => hpoints _ (h.points u)
  · simp only [Queue.goto] at hu hv
    by_cases hut : u = t <;> by_cases hvt : v = t
    · rw [hut, hvt]
    · subst hut
      rw [Function.update_self] at hu
      rw [Function.update_of_ne hvt] at hv
      cases hu
      exact absurd hv (hnone v)
    · subst hvt
      rw [Function.update_self] at hv
      rw [Function.update_of_ne hut] at hu
      cases hv
      exact absurd hu (hnone u)
    · rw [Function.update_of_ne hut] at hu
      rw [Function.update_of_ne hvt] at hv
      exact h.one u v m hu hv
  · rcases List.mem_append.mp hm with hm | hm
    · exact exists_update (P := fun q => q.node = some m) (fun ht => by rw [hidle] at ht; cases ht) (h.coming m hm hm')
    · exact ⟨t, by simp [Queue.goto, Adding.node, List.mem_singleton.mp hm]⟩
  · obtain ⟨v, hv⟩ := exists_update (t := t) (q := .read n) (fun ht => by rw [hidle] at ht; exact ht) ⟨u, hu⟩
    exact hblank v hv

/-- It reads the link of the head. -/
theorem Queue.Base.read (h : c.Base head) (hpc : c.pc t = .read n) :
    ({ c.goto t (.back n (c.heap head).prev) with before := Function.update c.before n (c.heap head).prev } :
      Queue τ α).Base head := by
  have hn := h.points t
  rw [hpc] at hn
  have hsame : ∀ m, m ≠ n → Function.update c.before n (c.heap head).prev m = c.before m :=
    fun m hm => Function.update_of_ne hm ..
  have hne : ∀ m ∈ c.added, m ≠ n := fun m hm hmn => hn.2 (hmn ▸ hm)
  obtain ⟨hone, hcoming⟩ := h.one_of (t := t) (q := .back n (c.heap head).prev) (by rw [hpc]; rfl)
  refine ⟨h.nodup, h.added, h.within, ?_, hone, hcoming, fun m hm => ?_, h.first, fun y hy hblank => ?_⟩
  · refine (Function.forall_update_iff c.pc fun _ q => _).mpr ⟨⟨hn, Function.update_self .., h.first⟩, fun u hu => ?_⟩
    have hun : (c.pc u).node ≠ some n := fun hun => hu (h.one u t n hun (by rw [hpc]; rfl))
    have hat := h.points u
    generalize c.pc u = x at hat hun
    cases x with
    | idle => trivial
    | read m => exact hat
    | back m p => exact ⟨hat.1, (hsame m fun hm => hun (by rw [hm]; rfl)).trans hat.2.1, hat.2.2⟩
    | _ => exact ⟨hat.1, (hsame _ (hne _ hat.1)).trans hat.2.1, hat.2.2⟩
  · simp only [Queue.goto, hsame m (hne m hm)]
    exact h.before m hm
  · have hnext := h.next y hy fun u hu => by
      obtain ⟨v, hv⟩ := exists_update (t := t) (q := .back n (c.heap head).prev)
        (fun ht => by rw [hpc] at ht; exact ht) ⟨u, hu⟩
      exact hblank v hv
    refine hnext.imp_right fun hadded => ⟨hadded.1, ?_⟩
    simp only [Queue.goto, hsame _ (hne _ hadded.1)]
    exact hadded.2

/-- It replaces the link of the head. -/
theorem Queue.Base.back (h : c.Base head) (hpc : c.pc t = .back n p) :
    ({ c.goto t (.forth n p) with heap := setPrev c.heap head n, added := c.added ++ [n] } : Queue τ α).Base head := by
  have hat := h.points t
  rw [hpc] at hat
  obtain ⟨⟨hn, hnew⟩, hbefore, hp⟩ := hat
  have hgrow : head :: c.added ⊆ head :: (c.added ++ [n]) := by
    rw [← List.cons_append]
    exact List.subset_append_left _ _
  obtain ⟨hone, -⟩ := h.one_of (t := t) (q := .forth n p) (by rw [hpc]; rfl)
  refine ⟨h.nodup, ?_, fun m hm => ?_, ?_, hone, fun m hm hm' => ?_, fun m hm => ?_, ?_, fun y hy hblank => ?_⟩
  · rw [← List.concat_eq_append]
    exact h.added.concat hnew
  · rcases List.mem_append.mp hm with hm | hm
    · exact h.within hm
    · exact List.mem_singleton.mp hm ▸ hn
  · refine (Function.forall_update_iff c.pc fun _ q => _).mpr ⟨⟨by simp, hbefore, hgrow hp⟩, fun u hu => ?_⟩
    have hun : (c.pc u).node ≠ some n := fun hun => hu (h.one u t n hun (by rw [hpc]; rfl))
    have hat := h.points u
    generalize c.pc u = x at hat hun
    have hnot : ∀ m, m ≠ n → m ∉ c.added → m ∉ c.added ++ [n] := fun m hm hm' => by simp [hm, hm']
    cases x with
    | idle => trivial
    | read m => exact ⟨hat.1, hnot m (fun hm => hun (by rw [hm]; rfl)) hat.2⟩
    | back m p => exact ⟨⟨hat.1.1, hnot m (fun hm => hun (by rw [hm]; rfl)) hat.1.2⟩, hat.2.1, hgrow hat.2.2⟩
    | _ => exact ⟨List.mem_append_left _ hat.1, hat.2.1, hgrow hat.2.2⟩
  · obtain ⟨hm', hmn⟩ := not_or.mp (List.mem_append.not.mp hm')
    refine exists_update (P := fun q => q.node = some m) (fun ht => ?_) (h.coming m hm hm')
    rw [hpc] at ht
    exact absurd (List.mem_singleton.mpr (Option.some.inj ht).symm) hmn
  · rcases List.mem_append.mp hm with hm | hm
    · exact hgrow (h.before m hm)
    · rw [List.mem_singleton.mp hm]
      exact hgrow (hbefore ▸ hp)
  · simp
  · have hyn : y ≠ n := by
      rintro rfl
      exact hblank t (by simp [Queue.goto, Adding.blank])
    have hy' : y ∈ head :: c.added := by
      rw [← List.cons_append] at hy
      exact (List.mem_append.mp hy).resolve_right fun hm => hyn (List.mem_singleton.mp hm)
    have hnext := h.next y hy' fun u hu => by
      obtain ⟨v, hv⟩ := exists_update (t := t) (q := .forth n p) (fun ht => by rw [hpc] at ht; cases ht) ⟨u, hu⟩
      exact hblank v hv
    rw [setPrev_next]
    exact hnext.imp_right fun hadded => ⟨List.mem_append_left _ hadded.1, hadded.2⟩

omit [DecidableEq α] in
/-- A step of a thread whose node is added changes links only. -/
theorem Queue.Base.store (h : c.Base head) {q : Adding α} {heap : α → Links α} (hat : c.At head q)
    (hnode : ∀ m, q.node = some m → (c.pc t).node = some m) (hadded : ∀ m, (c.pc t).node = some m → m ∈ c.added)
    (hfirst : (heap head).prev = (c.heap head).prev)
    (hnext : ∀ y, (∀ u, ¬ (Function.update c.pc t q u).blank y) → (heap y).next = head ∨
      ((heap y).next ∈ c.added ∧ c.before (heap y).next = y) ∨ (heap y).next = (c.heap y).next ∧ ¬ (c.pc t).blank y) :
    ({ c.goto t q with heap := heap } : Queue τ α).Base head := by
  have hwas : ∀ u m, (Function.update c.pc t q u).node = some m → (c.pc u).node = some m := by
    intro u m hu
    by_cases hut : u = t
    · subst hut
      rw [Function.update_self] at hu
      exact hnode m hu
    · rwa [Function.update_of_ne hut] at hu
  refine ⟨h.nodup, h.added, h.within, ?_, fun u v m hu hv => h.one u v m (hwas u m hu) (hwas v m hv), fun m hm hm' => ?_,
    h.before, by rw [hfirst]; exact h.first, fun y hy hblank => ?_⟩
  · exact (Function.forall_update_iff c.pc fun _ q => c.At head q).mpr ⟨hat, fun u _ => h.points u⟩
  · exact exists_update (P := fun q => q.node = some m) (fun ht => absurd (hadded m ht) hm') (h.coming m hm hm')
  · rcases hnext y hblank with heq | heq | ⟨heq, hnot⟩
    · exact Or.inl heq
    · exact Or.inr heq
    · rw [heq]
      refine h.next y hy fun u hu => ?_
      obtain ⟨v, hv⟩ := exists_update (t := t) (q := q) (fun ht => absurd ht hnot) ⟨u, hu⟩
      exact hblank v hv

/-- **What holds in every run is kept.** -/
theorem Queue.Base.step (h : c.Base head) (e : τ × QueueMove α) : (c.step head e).Base head := by
  obtain ⟨t, move⟩ := e
  have hacts := step_acts head c t move
  have hat := h.points t
  generalize c.step head (t, move) = c' at hacts
  cases hacts with
  | stay => exact h
  | call hidle hnew => exact h.call hidle hnew
  | read hpc => exact h.read hpc
  | back hpc => exact h.back hpc
  | @forth n p hpc =>
    rw [hpc] at hat
    refine h.store hat (fun m hm => by rw [hpc]; exact hm) (fun m hm => ?_) (by simp) fun y _ => ?_
    · rw [hpc] at hm
      exact Option.some.inj hm ▸ hat.1
    · rw [setNext_next, hpc]
      split_ifs with hy
      · exact Or.inl rfl
      · exact Or.inr (Or.inr ⟨rfl, fun hn => hy hn.symm⟩)
  | @own n p hpc =>
    rw [hpc] at hat
    have hne : head ≠ n := (h.ne_head (h.within hat.1)).symm
    refine h.store hat (fun m hm => by rw [hpc]; exact hm) (fun m hm => ?_) (by simp [hne]) fun y _ => ?_
    · rw [hpc] at hm
      exact Option.some.inj hm ▸ hat.1
    · rw [setPrev_next, hpc]
      exact Or.inr (Or.inr ⟨rfl, fun hn => hn⟩)
  | @link n p hpc =>
    rw [hpc] at hat
    refine h.store trivial (fun m hm => by cases hm) (fun m hm => ?_) (by simp) fun y _ => ?_
    · rw [hpc] at hm
      exact Option.some.inj hm ▸ hat.1
    · rw [setNext_next, hpc]
      split_ifs with hy
      · exact Or.inr (Or.inl ⟨hat.1, hy ▸ hat.2.1⟩)
      · exact Or.inr (Or.inr ⟨rfl, fun hn => hn⟩)

/-! ## Runs of good steps -/

/-- **What good steps keep**: the nodes added are a chain, each behind the node that its call has read, and the links follow
it, but for those that a thread is still to set. -/
structure Queue.Sound (head : α) (c : Queue τ α) : Prop extends c.Base head where
  chain : List.IsChain (fun y x => c.before x = y) (head :: c.added)
  tail : ∀ y ∈ (head :: c.added).getLast?, (c.heap head).prev = y
  linked : ∀ x ∈ c.added, (c.heap (c.before x)).next = x ∨ c.Pending x
  last : ∀ y ∈ (head :: c.added).getLast?, (c.heap y).next = head ∨ ∃ u, (c.pc u).blank y
  blank : ∀ y, (∃ u, (c.pc u).blank y) → ∀ x ∈ c.added, c.before x = y → c.Pending x
  prevs : ∀ x ∈ c.added, (c.heap x).prev = c.before x ∨ ∃ u, (c.pc u).unset x

omit [DecidableEq τ] [DecidableEq α] in
theorem Queue.Base.nodup_added (h : c.Base head) : (head :: c.added).Nodup :=
  List.nodup_cons.mpr ⟨fun hm => h.ne_head (h.within hm) rfl, h.added⟩

omit [DecidableEq α] in
/-- A call adds nothing yet. -/
theorem Queue.Sound.call (h : c.Sound head) (hidle : c.pc t = .idle) (hnew : n ∉ head :: c.nodes) :
    ({ c.goto t (.read n) with nodes := c.nodes ++ [n] } : Queue τ α).Sound head where
  toBase := h.toBase.call hidle hnew
  chain := h.chain
  tail := h.tail
  linked x hx := (h.linked x hx).imp_right (exists_update fun ht => by rw [hidle] at ht; exact ht)
  last y hy := (h.last y hy).imp_right (exists_update fun ht => by rw [hidle] at ht; exact ht)
  blank y hy x hx hxy := by
    have hy := exists_of_update (P := Adding.blank y) (fun hn => absurd hn id) hy
    exact exists_update (fun ht => by rw [hidle] at ht; exact ht) (h.blank y hy x hx hxy)
  prevs x hx := (h.prevs x hx).imp_right (exists_update fun ht => by rw [hidle] at ht; exact ht)

theorem Queue.Sound.read (h : c.Sound head) (hpc : c.pc t = .read n) :
    ({ c.goto t (.back n (c.heap head).prev) with before := Function.update c.before n (c.heap head).prev } :
      Queue τ α).Sound head := by
  have hn := h.points t
  rw [hpc] at hn
  have hsame : ∀ m ∈ c.added, Function.update c.before n (c.heap head).prev m = c.before m := by
    intro m hm
    refine Function.update_of_ne ?_ ..
    rintro rfl
    exact hn.2 hm
  refine ⟨h.toBase.read hpc, ?_, h.tail, fun x hx => ?_, fun y hy => ?_, fun y hy x hx hxy => ?_, fun x hx => ?_⟩
  · refine h.chain.imp_of_mem_tail_imp fun y x _ hx hyx => ?_
    rw [← hyx]
    exact hsame x hx
  · simp only [Queue.goto, hsame x hx]
    exact (h.linked x hx).imp_right (exists_update fun ht => by rw [hpc] at ht; exact ht)
  · exact (h.last y hy).imp_right (exists_update fun ht => by rw [hpc] at ht; exact ht)
  · have hy := exists_of_update (P := Adding.blank y) (fun hn => absurd hn id) hy
    exact exists_update (fun ht => by rw [hpc] at ht; exact ht) (h.blank y hy x hx ((hsame x hx).symm.trans hxy))
  · simp only [Queue.goto, hsame x hx]
    exact (h.prevs x hx).imp_right (exists_update fun ht => by rw [hpc] at ht; exact ht)

/-- A thread that replaces the link it has read puts its node behind the last one. -/
theorem Queue.Sound.back (h : c.Sound head) (hpc : c.pc t = .back n p) (hgood : (c.heap head).prev = p) :
    ({ c.goto t (.forth n p) with heap := setPrev c.heap head n, added := c.added ++ [n] } : Queue τ α).Sound head := by
  have hat := h.points t
  rw [hpc] at hat
  obtain ⟨⟨hn, hnew⟩, hbefore, hp⟩ := hat
  have hhead := h.ne_head hn
  have hlast : (head :: (c.added ++ [n])).getLast? = some n := by rw [← List.cons_append, List.getLast?_concat]
  -- nothing is behind the node yet
  have hbehind : ∀ x ∈ c.added ++ [n], c.before x ≠ n := by
    intro x hx hxn
    have hmem : n ∈ head :: c.added := by
      rcases List.mem_append.mp hx with hx | hx
      · exact hxn ▸ h.before x hx
      · rw [List.mem_singleton.mp hx, hbefore] at hxn
        exact hxn ▸ hp
    exact (List.mem_cons.mp hmem).elim hhead hnew
  have hpending : ∀ x, (c.Pending x ∨ x = n) → ∃ u, (Function.update c.pc t (.forth n p) u).late x := by
    rintro x (hx | rfl)
    · exact exists_update (fun ht => by rw [hpc] at ht; cases ht) hx
    · exact ⟨t, by rw [Function.update_self]; rfl⟩
  refine ⟨h.toBase.back hpc, ?_, fun y hy => ?_, fun x hx => ?_, fun y hy => ?_, fun y hy x hx hxy => ?_, fun x hx => ?_⟩
  · rw [← List.cons_append]
    refine List.isChain_append.mpr ⟨h.chain, List.isChain_singleton n, fun y hy x hx => ?_⟩
    obtain rfl : n = x := Option.some.inj hx
    exact hbefore.trans (hgood.symm.trans (h.tail y hy))
  · obtain rfl : n = y := Option.some.inj (hlast.symm.trans hy)
    simp
  · rw [setPrev_next]
    rcases List.mem_append.mp hx with hx | hx
    · exact (h.linked x hx).imp_right fun hp => hpending x (Or.inl hp)
    · exact Or.inr (hpending x (Or.inr (List.mem_singleton.mp hx)))
  · obtain rfl : n = y := Option.some.inj (hlast.symm.trans hy)
    exact Or.inr ⟨t, by simp [Queue.goto, Adding.blank]⟩
  · rcases List.mem_append.mp hx with hx' | hx'
    · have hyn : y ≠ n := fun hyn => hbehind x hx (hxy.trans hyn)
      have hy' := exists_of_update (P := Adding.blank y) (q := .forth n p) (fun hn => absurd hn.symm hyn) hy
      exact hpending x (Or.inl (h.blank y hy' x hx' hxy))
    · exact hpending x (Or.inr (List.mem_singleton.mp hx'))
  · rcases List.mem_append.mp hx with hx | hx
    · rw [setPrev_prev, if_neg (h.ne_head (h.within hx))]
      exact (h.prevs x hx).imp_right (exists_update fun ht => by rw [hpc] at ht; cases ht)
    · exact Or.inr ⟨t, by simp [Queue.goto, Adding.unset, List.mem_singleton.mp hx]⟩

/-- The node's own links are set. -/
theorem Queue.Sound.forth (h : c.Sound head) (hpc : c.pc t = .forth n p)
    (hbase : ({ c.goto t (.own n p) with heap := setNext c.heap n head } : Queue τ α).Base head) :
    ({ c.goto t (.own n p) with heap := setNext c.heap n head } : Queue τ α).Sound head := by
  have hpending : ∀ x, c.Pending x → ∃ u, (Function.update c.pc t (.own n p) u).late x :=
    fun x => exists_update fun ht => by rw [hpc] at ht; exact ht
  refine ⟨hbase, h.chain, fun y hy => ?_, fun x hx => ?_, fun y hy => ?_, fun y hy x hx hxy => ?_, fun x hx => ?_⟩
  · rw [setNext_prev]
    exact h.tail y hy
  · simp only [Queue.goto, setNext_next]
    split_ifs with hxn
    · exact Or.inr (hpending x (h.blank n ⟨t, by rw [hpc]; rfl⟩ x hx hxn))
    · exact (h.linked x hx).imp_right (hpending x)
  · simp only [Queue.goto, setNext_next]
    split_ifs with hyn
    · exact Or.inl rfl
    · exact (h.last y hy).imp_right (exists_update fun ht => by rw [hpc] at ht; exact absurd ht.symm hyn)
  · exact hpending x (h.blank y (exists_of_update (fun hn => absurd hn id) hy) x hx hxy)
  · rw [setNext_prev]
    exact (h.prevs x hx).imp_right (exists_update fun ht => by rw [hpc] at ht; exact ht)

theorem Queue.Sound.own (h : c.Sound head) (hpc : c.pc t = .own n p)
    (hbase : ({ c.goto t (.link n p) with heap := setPrev c.heap n p } : Queue τ α).Base head) :
    ({ c.goto t (.link n p) with heap := setPrev c.heap n p } : Queue τ α).Sound head := by
  have hat := h.points t
  rw [hpc] at hat
  have hpending : ∀ x, c.Pending x → ∃ u, (Function.update c.pc t (.link n p) u).late x :=
    fun x => exists_update fun ht => by rw [hpc] at ht; exact ht
  refine ⟨hbase, h.chain, fun y hy => ?_, fun x hx => ?_, fun y hy => ?_, fun y hy x hx hxy => ?_, fun x hx => ?_⟩
  · rw [setPrev_prev, if_neg (h.ne_head (h.within hat.1)).symm]
    exact h.tail y hy
  · rw [setPrev_next]
    exact (h.linked x hx).imp_right (hpending x)
  · rw [setPrev_next]
    exact (h.last y hy).imp_right (exists_update fun ht => by rw [hpc] at ht; exact absurd ht id)
  · exact hpending x (h.blank y (exists_of_update (fun hn => absurd hn id) hy) x hx hxy)
  · simp only [Queue.goto, setPrev_prev]
    split_ifs with hxn
    · rw [hxn]
      exact Or.inl hat.2.1.symm
    · exact (h.prevs x hx).imp_right (exists_update fun ht => by rw [hpc] at ht; exact absurd ht.symm hxn)

/-- A thread that links its node behind one whose own link was set. -/
theorem Queue.Sound.link (h : c.Sound head) (hpc : c.pc t = .link n p) (hgood : ∀ u, ¬ (c.pc u).blank p)
    (hbase : ({ c.goto t .idle with heap := setNext c.heap p n } : Queue τ α).Base head) :
    ({ c.goto t .idle with heap := setNext c.heap p n } : Queue τ α).Sound head := by
  have hat := h.points t
  rw [hpc] at hat
  obtain ⟨hn, hbefore, hp⟩ := hat
  have hpending : ∀ x, x ≠ n → c.Pending x → ∃ u, (Function.update c.pc t .idle u).late x :=
    fun x hx => exists_update fun ht => by rw [hpc] at ht; exact absurd ht.symm hx
  refine ⟨hbase, h.chain, fun y hy => ?_, fun x hx => ?_, fun y hy => ?_, fun y hy x hx hxy => ?_, fun x hx => ?_⟩
  · rw [setNext_prev]
    exact h.tail y hy
  · simp only [Queue.goto, setNext_next]
    by_cases hxn : x = n
    · rw [hxn, if_pos hbefore]
      exact Or.inl rfl
    · -- no other node is behind the same one
      have hne : c.before x ≠ p := fun hxp =>
        hxn (pred_inj h.chain h.nodup_added x hx n hn (hxp.trans hbefore.symm))
      rw [if_neg hne]
      exact (h.linked x hx).imp_right (hpending x hxn)
  · have hyp : y ≠ p := fun hyp => pred_ne_last h.chain h.nodup_added hn hy (hbefore.trans hyp.symm)
    simp only [Queue.goto, setNext_next, if_neg hyp]
    exact (h.last y hy).imp_right (exists_update fun ht => by rw [hpc] at ht; exact absurd ht id)
  · have hy' := exists_of_update (P := Adding.blank y) (fun hn => absurd hn id) hy
    refine hpending x ?_ (h.blank y hy' x hx hxy)
    rintro rfl
    obtain ⟨u, hu⟩ := hy'
    exact hgood u (by rwa [← hbefore, show c.before x = y from hxy])
  · rw [setNext_prev]
    exact (h.prevs x hx).imp_right (exists_update fun ht => by rw [hpc] at ht; exact absurd ht id)

/-- **A good step keeps it.** -/
theorem Queue.Sound.step (h : c.Sound head) {e : τ × QueueMove α} (hgood : c.Good head e) : (c.step head e).Sound head := by
  have hbase := h.toBase.step e
  obtain ⟨t, move⟩ := e
  have hacts := step_acts head c t move
  generalize c.step head (t, move) = c' at hacts hbase
  cases hacts with
  | stay => exact h
  | call hidle hnew => exact h.call hidle hnew
  | read hpc => exact h.read hpc
  | back hpc =>
    have hgood := hgood rfl
    rw [hpc] at hgood
    exact h.back hpc hgood
  | forth hpc => exact h.forth hpc hbase
  | own hpc => exact h.own hpc hbase
  | link hpc =>
    have hgood := hgood rfl
    rw [hpc] at hgood
    exact h.link hpc hgood hbase

/-! ## Runs with another step -/

/-- **A node is lost**: it is behind the same node as another one, or the node before it has been linked to something else, or
is about to be. -/
def Queue.Lost (c : Queue τ α) : Prop :=
  (∃ x ∈ c.added, ∃ y ∈ c.added, x ≠ y ∧ c.before x = c.before y) ∨
    ∃ x ∈ c.added, ¬ c.Pending x ∧ ((c.heap (c.before x)).next ≠ x ∨ ∃ u, (c.pc u).blank (c.before x))

omit [DecidableEq τ] [DecidableEq α] in
/-- A node stays lost while the records of it stay, and its link is set to nothing else than itself. -/
theorem Queue.Lost.keep {c' : Queue τ α} (hl : c.Lost) (hadded : c.added ⊆ c'.added)
    (hbefore : ∀ x ∈ c.added, c'.before x = c.before x)
    (hlink : ∀ x ∈ c.added, ¬ c.Pending x → ¬ c'.Pending x ∧
      ((c'.heap (c.before x)).next ≠ x ∨ (c'.heap (c.before x)).next = (c.heap (c.before x)).next ∧
        ((∃ u, (c.pc u).blank (c.before x)) → ∃ u, (c'.pc u).blank (c.before x)))) : c'.Lost := by
  rcases hl with ⟨x, hx, y, hy, hxy, heq⟩ | ⟨x, hx, hdone, hlost⟩
  · exact Or.inl ⟨x, hadded hx, y, hadded hy, hxy, by rw [hbefore x hx, hbefore y hy, heq]⟩
  · obtain ⟨hdone', hnext⟩ := hlink x hx hdone
    refine Or.inr ⟨x, hadded hx, hdone', ?_⟩
    rw [hbefore x hx]
    rcases hnext with hne | ⟨heq, hblank⟩
    · exact Or.inl hne
    · rw [heq]
      exact hlost.imp_right hblank

/-- **A lost node stays lost.** -/
theorem Queue.Lost.step (hl : c.Lost) (h : c.Base head) (e : τ × QueueMove α) : (c.step head e).Lost := by
  obtain ⟨t, move⟩ := e
  have hacts := step_acts head c t move
  have hat := h.points t
  generalize c.step head (t, move) = c' at hacts
  cases hacts with
  | stay => exact hl
  | @call n hidle hnew =>
    refine hl.keep (List.Subset.refl _) (fun _ _ => rfl) fun x _ hdone => ⟨fun hp => hdone ?_, Or.inr ⟨rfl, ?_⟩⟩
    · exact exists_of_update (fun hn => absurd hn id) hp
    · exact exists_update fun ht => by rw [hidle] at ht; exact ht
  | @read n hpc =>
    rw [hpc] at hat
    refine hl.keep (List.Subset.refl _) (fun x hx => ?_) fun x _ hdone => ⟨fun hp => hdone ?_, Or.inr ⟨rfl, ?_⟩⟩
    · refine Function.update_of_ne ?_ ..
      rintro rfl
      exact hat.2 hx
    · exact exists_of_update (fun hn => absurd hn id) hp
    · exact exists_update fun ht => by rw [hpc] at ht; exact ht
  | @back n p hpc =>
    rw [hpc] at hat
    refine hl.keep (List.subset_append_left _ _) (fun _ _ => rfl) fun x hx hdone =>
      ⟨fun hp => hdone ?_, Or.inr ⟨setPrev_next .., ?_⟩⟩
    · refine exists_of_update (q := .forth n p) (fun hn => ?_) hp
      exact absurd (show x ∈ c.added from hx) ((show n = x from hn) ▸ hat.1.2)
    · exact exists_update fun ht => by rw [hpc] at ht; exact absurd ht id
  | @forth n p hpc =>
    refine hl.keep (List.Subset.refl _) (fun _ _ => rfl) fun x hx hdone => ⟨fun hp => hdone ?_, ?_⟩
    · exact exists_of_update (q := .own n p) (fun hn => by rw [hpc]; exact hn) hp
    · simp only [Queue.goto, setNext_next]
      split_ifs with hxn
      · exact Or.inl (h.ne_head (h.within hx)).symm
      · exact Or.inr ⟨rfl, exists_update fun ht => by rw [hpc] at ht; exact absurd ht.symm hxn⟩
  | @own n p hpc =>
    refine hl.keep (List.Subset.refl _) (fun _ _ => rfl) fun x _ hdone =>
      ⟨fun hp => hdone ?_, Or.inr ⟨setPrev_next .., ?_⟩⟩
    · exact exists_of_update (q := .link n p) (fun hn => by rw [hpc]; exact hn) hp
    · exact exists_update fun ht => by rw [hpc] at ht; exact absurd ht id
  | @link n p hpc =>
    refine hl.keep (List.Subset.refl _) (fun _ _ => rfl) fun x _ hdone => ⟨fun hp => hdone ?_, ?_⟩
    · exact exists_of_update (fun hn => absurd hn id) hp
    · have hxn : n ≠ x := by
        rintro rfl
        exact hdone ⟨t, by rw [hpc]; rfl⟩
      simp only [Queue.goto, setNext_next]
      split_ifs with hxp
      · exact Or.inl hxn
      · exact Or.inr ⟨rfl, exists_update fun ht => by rw [hpc] at ht; exact absurd ht id⟩

/-- **A step that is not good loses a node.** -/
theorem Queue.Sound.lose (h : c.Sound head) {e : τ × QueueMove α} (hbad : ¬ c.Good head e) : (c.step head e).Lost := by
  obtain ⟨t, move⟩ := e
  have hat := h.points t
  obtain ⟨hrun, hbad⟩ := Classical.not_imp.mp hbad
  obtain rfl : move = .run := hrun
  cases hpc : c.pc t <;> rw [hpc] at hat hbad <;> simp only [Queue.step, hpc]
  case back n p =>
    obtain ⟨x, hx, hxp⟩ := exists_behind h.chain p hat.2.2 fun hp => hbad (h.tail p hp)
    refine Or.inl ⟨x, List.mem_append_left _ hx, n, by simp, ?_, hxp.trans hat.2.1.symm⟩
    rintro rfl
    exact hat.1.2 hx
  case link n p =>
    refine Or.inr ⟨n, hat.1, ?_, Or.inr ?_⟩
    · rintro ⟨u, hu⟩
      simp only [Queue.goto] at hu
      by_cases hut : u = t
      · subst hut
        rw [Function.update_self] at hu
        exact hu
      · rw [Function.update_of_ne hut] at hu
        exact hut (h.one u t n (node_of_late hu) (by rw [hpc]; rfl))
    · obtain ⟨-, rfl, -⟩ := hat
      exact exists_update (fun ht => by rw [hpc] at ht; exact absurd ht id) (not_forall_not.mp hbad)
  all_goals exact absurd trivial hbad

/-! ## Where no thread is adding -/

omit [DecidableEq τ] in
/-- Where no thread is adding, the list is a ring of the nodes. -/
theorem Queue.Sound.ring (h : c.Sound head) (hidle : ∀ u, c.pc u = .idle) :
    IsRing c.heap head c.added ∧ c.added.Perm c.nodes := by
  have hnone : ∀ {P : Adding α → Prop}, ¬ P .idle → ¬ ∃ u, P (c.pc u) := by
    rintro P hP ⟨u, hu⟩
    exact hP (hidle u ▸ hu)
  refine ⟨⟨h.nodup_added, ?_, ?_, fun y hy => (h.last y hy).resolve_right (hnone id), h.tail⟩, ?_⟩
  · refine h.chain.imp_of_mem_tail_imp fun y x _ hx hyx => ?_
    rw [← hyx]
    exact (h.linked x hx).resolve_right (hnone id)
  · refine h.chain.imp_of_mem_tail_imp fun y x _ hx hyx => ?_
    rw [← hyx]
    exact (h.prevs x hx).resolve_right (hnone id)
  · refine (List.perm_ext_iff_of_nodup h.added (List.nodup_cons.mp h.nodup).2).mpr fun x => ⟨fun hx => h.within hx, ?_⟩
    intro hx
    by_contra hnot
    exact hnone (P := fun q => q.node = some x) (by simp [Adding.node]) (h.coming x hx hnot)

omit [DecidableEq τ] in
/-- Where no thread is adding, and a node is lost, the loop over the list does not visit every node. -/
theorem Queue.Lost.unvisited (hl : c.Lost) (h : c.Base head) (hidle : ∀ u, c.pc u = .idle) {k : Nat} {xs : List α}
    (hw : walk c.heap head k (c.heap head).next = some xs) : ¬ c.nodes ⊆ xs := by
  intro hall
  have hblank : ∀ y u, ¬ (c.pc u).blank y := fun y u hu => by rw [hidle] at hu; exact hu
  have hnext : ∀ y ∈ head :: c.added, (c.heap y).next = head ∨
      (c.heap y).next ∈ c.added ∧ (c.heap (c.before (c.heap y).next)).next = (c.heap y).next := by
    intro y hy
    refine (h.next y hy (hblank y)).imp_right fun hadded => ⟨hadded.1, ?_⟩
    rw [hadded.2]
  have hvisited : ∀ x ∈ xs, x ∈ c.added ∧ (c.heap (c.before x)).next = x :=
    forall_of_walk (fun y _ hy => hnext y (List.mem_cons_of_mem _ hy.1)) (hnext head List.mem_cons_self) hw
  have hlinked : ∀ x ∈ c.added, (c.heap (c.before x)).next = x := fun x hx => (hvisited x (hall (h.within hx))).2
  rcases hl with ⟨x, hx, y, hy, hxy, heq⟩ | ⟨x, hx, -, hne | ⟨u, hu⟩⟩
  · exact hxy ((hlinked x hx).symm.trans (heq ▸ hlinked y hy))
  · exact hne (hlinked x hx)
  · exact hblank _ u hu

omit [DecidableEq τ] in
/-- At the start. -/
theorem Queue.sound_init (heap : α → Links α) : (Queue.init head heap : Queue τ α).Sound head where
  nodup := List.nodup_singleton head
  added := List.nodup_nil
  within := List.Subset.refl _
  points _ := trivial
  one t u n ht := by cases ht
  coming n hn := absurd hn List.not_mem_nil
  before n hn := absurd hn List.not_mem_nil
  first := by simp [Queue.init]
  next y hy _ := by
    obtain rfl := List.mem_singleton.mp hy
    simp [Queue.init]
  chain := List.isChain_singleton head
  tail y hy := by
    obtain rfl : head = y := Option.some.inj hy
    simp [Queue.init]
  linked x hx := absurd hx List.not_mem_nil
  last y hy := by
    obtain rfl : head = y := Option.some.inj hy
    simp [Queue.init]
  blank y hy x hx := absurd hx List.not_mem_nil
  prevs x hx := absurd hx List.not_mem_nil

theorem Queue.Lost.run {es : List (τ × QueueMove α)} : ∀ {c : Queue τ α}, c.Lost → c.Base head →
    (es.foldl (Queue.step head) c).Lost ∧ (es.foldl (Queue.step head) c).Base head := by
  induction es with
  | nil => exact fun hl h => ⟨hl, h⟩
  | cons e es ih => exact fun hl h => ih (hl.step h e) (h.step e)

/-- A run of good steps, and one with another step. -/
theorem Queue.Sound.run {es : List (τ × QueueMove α)} : ∀ {c : Queue τ α}, c.Sound head →
    (EachStep (Queue.step head) (Queue.Good head) c es → (es.foldl (Queue.step head) c).Sound head) ∧
    (¬ EachStep (Queue.step head) (Queue.Good head) c es →
      (es.foldl (Queue.step head) c).Lost ∧ (es.foldl (Queue.step head) c).Base head) := by
  induction es with
  | nil => exact fun h => ⟨fun _ => h, fun hnot => absurd trivial hnot⟩
  | cons e es ih =>
    intro c h
    by_cases hgood : c.Good head e
    · obtain ⟨hyes, hno⟩ := ih (h.step hgood)
      exact ⟨fun hes => hyes hes.2, fun hnot => hno fun hes => hnot ⟨hgood, hes⟩⟩
    · exact ⟨fun hes => absurd hes.1 hgood, fun _ => (h.lose hgood).run (h.toBase.step e)⟩

/-! ## One addition after the other -/

/-- A thread that adds a node while no other is adding. -/
def addAlone (t : τ) (n : α) : List (τ × QueueMove α) := (t, .call n) :: List.replicate 5 (t, .run)

/-- **Alone, `list_add_tail` puts the node behind the others.** -/
theorem Queue.Sound.alone (h : c.Sound head) (hidle : ∀ u, c.pc u = .idle) (hnew : n ∉ head :: c.nodes) (t : τ) :
    let c' := (addAlone t n).foldl (Queue.step head) c
    c'.Sound head ∧ (∀ u, c'.pc u = .idle) ∧ c'.nodes = c.nodes ++ [n] ∧ c'.added = c.added ++ [n] := by
  intro c'
  have hgood : EachStep (Queue.step head) (Queue.Good head) c (addAlone t n) := by
    simp [addAlone, List.replicate, Queue.step, Queue.Good, Queue.GoodAt, hidle, hnew, Queue.goto,
      Function.update_apply, Adding.blank]
    intro u
    split_ifs <;> exact id
  refine ⟨h.run.1 hgood, fun u => ?_, ?_, ?_⟩
  · simp [c', addAlone, List.replicate, Queue.step, hidle, hnew, Queue.goto, Function.update_apply]
  · simp [c', addAlone, List.replicate, Queue.step, hidle, hnew, Queue.goto]
  · simp [c', addAlone, List.replicate, Queue.step, hidle, hnew, Queue.goto]

/-- It is the one step that `Shared.addEntry` makes of it: the queue of the tracer stays that of the nodes. -/
theorem Queue.Sound.follows_link {L : Layout} {g g' : Shared L} {q : Pc} {call hd : Nat} {buffer : α → Nat}
    (h : c.Sound head) (hidle : ∀ u, c.pc u = .idle) (hnew : n ∉ head :: c.nodes)
    (hqueue : c.added.map buffer = g.queue) (hhd : hd ≠ 0)
    (hlink : g.addEntry (.link call (buffer n) hd) .run = some (g', q)) (t : τ) :
    ((addAlone t n).foldl (Queue.step head) c).added.map buffer = g'.queue := by
  obtain ⟨-, -, -, hadded⟩ := h.alone hidle hnew t
  simp only [Shared.addEntry, if_neg hhd, Option.some.injEq, Prod.mk.injEq] at hlink
  rw [hadded, ← hlink.1, List.map_append, hqueue]
  rfl

end Base

/-- **When the queue is whole.** Any number of threads add new nodes to an empty list with `list_add_tail`, in any order of
their loads and stores, and when none of them is in it any more, a loop goes over the list. It visits every node exactly if
every thread replaced the link of the head that it had read, and linked its node behind one whose own link was set; and
then the list is a ring of all nodes, in the order in which they became the last. -/
theorem queue_whole_iff (head : α) (heap : α → Links α) (es : List (τ × QueueMove α))
    (hidle : ∀ u, (es.foldl (Queue.step head) (Queue.init head heap)).pc u = .idle) :
    let c := es.foldl (Queue.step head) (Queue.init head heap)
    let good := EachStep (Queue.step head) (Queue.Good head) (Queue.init head heap) es
    ((∃ k xs, walk c.heap head k (c.heap head).next = some xs ∧ c.nodes ⊆ xs) ↔ good) ∧
      (good → IsRing c.heap head c.added ∧ c.added.Perm c.nodes) := by
  intro c good
  have hinit : (Queue.init head heap : Queue τ α).Sound head := Queue.sound_init heap
  have hrun : (good → c.Sound head) ∧ (¬ good → c.Lost ∧ c.Base head) := hinit.run
  obtain ⟨hyes, hno⟩ := hrun
  refine ⟨⟨fun hw => ?_, fun hgood => ?_⟩, fun hgood => (hyes hgood).ring hidle⟩
  · by_contra hbad
    obtain ⟨k, xs, hw, hall⟩ := hw
    obtain ⟨hlost, hbase⟩ := hno hbad
    exact hlost.unvisited hbase hidle hw hall
  · obtain ⟨hring, hperm⟩ := (hyes hgood).ring hidle
    exact ⟨_, _, hring.walk, hperm.symm.subset⟩

/-! ## Two threads -/

instance Adding.decidableBlank (n : α) : ∀ q : Adding α, Decidable (q.blank n)
  | .forth neew _ => inferInstanceAs (Decidable (neew = n))
  | .idle | .read _ | .back _ _ | .own _ _ | .link _ _ => isFalse id

instance [Fintype τ] (head : α) (c : Queue τ α) : ∀ q, Decidable (c.GoodAt head q)
  | .back _ prev => inferInstanceAs (Decidable (_ = prev))
  | .link _ prev => inferInstanceAs (Decidable (∀ u, ¬ (c.pc u).blank prev))
  | .idle | .read _ | .forth _ _ | .own _ _ => isTrue trivial

instance [Fintype τ] (head : α) (c : Queue τ α) (e : τ × QueueMove α) : Decidable (c.Good head e) :=
  inferInstanceAs (Decidable (_ → _))

end Queue

/-- Both threads read the link of the head before one of them replaces it. -/
def racingAdds : List (Bool × QueueMove Nat) :=
  (false, .call 1) :: (true, .call 2) :: (false, .run) :: (true, .run) :: List.replicate 4 (false, .run) ++
    List.replicate 4 (true, .run)

/-- Then one of the nodes is lost. -/
theorem racing_adds_lose :
    let c := racingAdds.foldl (Queue.step 0) (Queue.init 0 fun _ => ⟨0, 0⟩)
    c.nodes = [1, 2] ∧ ¬ ∃ k xs, walk c.heap 0 k (c.heap 0).next = some xs ∧ c.nodes ⊆ xs :=
  ⟨by decide, fun hw => absurd ((queue_whole_iff 0 (fun _ => ⟨0, 0⟩) racingAdds (by decide)).1.mp hw) (by decide)⟩

end Cosmost.Tracer
