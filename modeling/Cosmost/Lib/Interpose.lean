import Cosmost.Lib.Run
import Mathlib.Data.List.Basic

/-!
# Interposed calls

A wrapper stands before an underlying call, a function of the state of the world that answers with a result and the
next state. What the wrapper did is its `Outcome`; it is `Transparent` if all that it did to the world is the one call
that its caller asked for.

- `transparent_call`: calling through, with whatever records, is transparent;
- `Transparent.foldl`: a program whose wrapped calls are all transparent sees the results, and leaves the world, that
  it would see and leave without the wrapper; `transparent_run` says so of a program that asks for its calls through
  several wrappers;
- `transparent_map_iff`: nothing changes when the calls and the records of one wrapper are taken among those of others.
-/

namespace Cosmost.Lib

variable {W C R : Type*}

/-- What a wrapper did: an underlying call, or a record emitted. -/
inductive Act (C R : Type*)
  | call (c : C)
  | record (r : R)
  deriving DecidableEq, Repr

/-- The end of a wrapper: its result, the world and what it did, in order. -/
structure Outcome (W C R : Type*) where
  ret : Int
  world : W
  acts : List (Act C R)

/-- The underlying calls among the acts. -/
def calls (acts : List (Act C R)) : List C :=
  acts.filterMap fun
    | .call c => some c
    | .record _ => none

/-- The records among the acts. -/
def records (acts : List (Act C R)) : List R :=
  acts.filterMap fun
    | .call _ => none
    | .record r => some r

@[simp] theorem calls_nil : calls ([] : List (Act C R)) = [] := rfl
@[simp] theorem calls_call (c : C) (acts : List (Act C R)) : calls (.call c :: acts) = c :: calls acts := rfl
@[simp] theorem calls_record (r : R) (acts : List (Act C R)) : calls (.record r :: acts) = calls acts := rfl
@[simp] theorem records_nil : records ([] : List (Act C R)) = [] := rfl
@[simp] theorem records_call (c : C) (acts : List (Act C R)) : records (.call c :: acts) = records acts := rfl
@[simp] theorem records_record (r : R) (acts : List (Act C R)) : records (.record r :: acts) = r :: records acts := rfl

/-- The wrapper made the call `c` and no other; its result and the world are those of the call. -/
structure Transparent (under : C → W → Int × W) (c : C) (w : W) (out : Outcome W C R) : Prop where
  once : calls out.acts = [c]
  ret : out.ret = (under c w).1
  world : out.world = (under c w).2

/-- Calling through. -/
def callThrough (under : C → W → Int × W) (c : C) (w : W) (recs : List R) : Outcome W C R :=
  ⟨(under c w).1, (under c w).2, .call c :: recs.map .record⟩

@[simp] theorem calls_map_record (recs : List R) : calls (recs.map (Act.record (C := C))) = [] := by
  induction recs with
  | nil => rfl
  | cons r recs ih => simpa using ih

@[simp] theorem records_map_record (recs : List R) : records (recs.map (Act.record (C := C))) = recs := by
  induction recs with
  | nil => rfl
  | cons r recs ih => simpa using ih

theorem transparent_call (under : C → W → Int × W) (c : C) (w : W) (recs : List R) :
    Transparent under c w (callThrough under c w recs) :=
  ⟨by simp [callThrough], rfl, rfl⟩

/-- One call of a program: the results so far and the world. -/
def bare (under : C → W → Int × W) (s : List Int × W) (c : C) : List Int × W :=
  (s.1 ++ [(under c s.2).1], (under c s.2).2)

/-- One call of a program, through the wrapper. -/
def wrapped (wrap : C → W → Outcome W C R) (s : List Int × W) (c : C) : List Int × W :=
  (s.1 ++ [(wrap c s.2).ret], (wrap c s.2).world)

/-- **Transparent calls compose**: results and world are those of the program without the wrapper. -/
theorem Transparent.foldl {under : C → W → Int × W} {wrap : C → W → Outcome W C R} {cs : List C}
    (h : ∀ c ∈ cs, ∀ w, Transparent under c w (wrap c w)) (s : List Int × W) :
    cs.foldl (wrapped wrap) s = cs.foldl (bare under) s := by
  induction cs generalizing s with
  | nil => rfl
  | cons c cs ih =>
    have hstep : wrapped wrap s c = bare under s c := by
      have ht := h c List.mem_cons_self s.2
      rw [wrapped, bare, ht.ret, ht.world]
    rw [List.foldl_cons, List.foldl_cons, hstep]
    exact ih (fun d hd => h d (List.mem_cons_of_mem _ hd)) _

/-! ## Several wrappers -/

variable {C' R' : Type*} (g : C → C') (r : R → R')

/-- An act among those of other wrappers. -/
def Act.map : Act C R → Act C' R'
  | .call c => .call (g c)
  | .record x => .record (r x)

/-- What the wrapper did, among what others do. -/
def Outcome.map (out : Outcome W C R) : Outcome W C' R' := ⟨out.ret, out.world, out.acts.map (Act.map g r)⟩

@[simp] theorem calls_map (acts : List (Act C R)) : calls (acts.map (Act.map g r)) = (calls acts).map g := by
  induction acts with
  | nil => rfl
  | cons a acts ih =>
    cases a with
    | call c => simpa [Act.map] using ih
    | record x => simpa [Act.map] using ih

@[simp] theorem records_map (acts : List (Act C R)) : records (acts.map (Act.map g r)) = (records acts).map r := by
  induction acts with
  | nil => rfl
  | cons a acts ih =>
    cases a with
    | call c => simpa [Act.map] using ih
    | record x => simpa [Act.map] using ih

variable {g r} in
theorem transparent_map_iff (hg : Function.Injective g) {under' : C' → W → Int × W} {under : C → W → Int × W}
    (hunder : ∀ c, under' (g c) = under c) {c : C} {w : W} {out : Outcome W C R} :
    Transparent under' (g c) w (out.map g r) ↔ Transparent under c w out := by
  constructor
  · intro h
    refine ⟨?_, by rw [← hunder]; exact h.ret, by rw [← hunder]; exact h.world⟩
    have honce := h.once
    rw [Outcome.map, calls_map] at honce
    apply List.map_injective_iff.mpr hg
    rw [honce, List.map_singleton]
  · intro h
    refine ⟨?_, by rw [hunder]; exact h.ret, by rw [hunder]; exact h.world⟩
    rw [Outcome.map, calls_map, h.once, List.map_singleton]

/-- One call of a program that asks by a name for it. -/
def asked {A : Type*} (wrap : A → W → Outcome W C R) (s : List Int × W) (a : A) : List Int × W :=
  (s.1 ++ [(wrap a s.2).ret], (wrap a s.2).world)

/-- **A program whose calls are transparent where it makes them**: it sees and leaves what it would without the
wrappers, which make the calls that it asks for. -/
theorem transparent_run {A : Type*} {under : C → W → Int × W} {wrap : A → W → Outcome W C R} {asks : A → C} {as : List A} :
    ∀ {s : List Int × W}, EachStep (fun w a => (wrap a w).world) (fun w a => Transparent under (asks a) w (wrap a w)) s.2 as →
      as.foldl (asked wrap) s = (as.map asks).foldl (bare under) s := by
  induction as with
  | nil => exact fun _ => rfl
  | cons a as ih =>
    intro s h
    obtain ⟨ha, has⟩ := h
    have hstep : asked wrap s a = bare under s (asks a) := by
      rw [asked, bare, ha.ret, ha.world]
    rw [List.foldl_cons, List.map_cons, List.foldl_cons, ← hstep]
    exact ih has

end Cosmost.Lib
