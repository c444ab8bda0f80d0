import Mathlib.Tactic.Common

/-!
# Runs and their invariants

- `EachStep step P s es`: in the run of the events `es` from `s`, every step `(s, e)` meets `P`. Where a step ends well
  exactly when it meets `P`, every state is well iff every step meets `P` (`eachStep_iff`); a run on another state
  follows it if steps that meet `P` keep a relation (`EachStep.follow`).
- `Reach step P init`: the states that steps meeting `P` reach, for a step that may be impossible; `Reach.inv` is the
  invariant rule, and `runAll` computes a run.
-/

namespace Cosmost.Lib

variable {σ ε : Type*}

/-! ## Deterministic runs -/

/-- Every step of the run of `es` from `s` meets `P`. -/
def EachStep (step : σ → ε → σ) (P : σ → ε → Prop) : σ → List ε → Prop
  | _, [] => True
  | s, e :: es => P s e ∧ EachStep step P (step s e) es

variable {step : σ → ε → σ} {P : σ → ε → Prop}

@[simp] theorem eachStep_nil (s : σ) : EachStep step P s [] := trivial

@[simp] theorem eachStep_cons {s : σ} {e : ε} {es : List ε} :
    EachStep step P s (e :: es) ↔ P s e ∧ EachStep step P (step s e) es := Iff.rfl

/-- A run can be checked step by step. -/
instance EachStep.decidable [∀ s e, Decidable (P s e)] : ∀ (s : σ) (es : List ε), Decidable (EachStep step P s es)
  | _, [] => isTrue trivial
  | s, e :: es =>
    have := EachStep.decidable (step s e) es
    inferInstanceAs (Decidable (_ ∧ _))

/-- A run and one that goes on from where it ends. -/
theorem eachStep_append {es es' : List ε} : ∀ {s : σ},
    EachStep step P s (es ++ es') ↔ EachStep step P s es ∧ EachStep step P (es.foldl step s) es' := by
  induction es with
  | nil => intro s; simp
  | cons e es ih =>
    intro s
    rw [List.cons_append, eachStep_cons, eachStep_cons, List.foldl_cons, ih, and_assoc]

/-- **The exactness rule**: where a step from a state with the invariant ends well exactly when it meets `P`, and
then keeps the invariant, every step ends well iff every step meets `P`. -/
theorem eachStep_iff_within {I : σ → Prop} {V R : σ → ε → Prop} (hR : ∀ s e, I s → V s e → (P s e ↔ R s e))
    (hI : ∀ s e, I s → V s e → P s e → I (step s e)) : ∀ {es : List ε} {s : σ}, I s → EachStep step V s es →
      (EachStep step P s es ↔ EachStep step R s es)
  | [], _, _, _ => by simp
  | e :: es, s, hs, hV => by
    obtain ⟨he, hes⟩ := hV
    have heq := hR s e hs he
    simp only [eachStep_cons]
    constructor
    · rintro ⟨h1, h2⟩
      exact ⟨heq.mp h1, (eachStep_iff_within hR hI (hI s e hs he h1) hes).mp h2⟩
    · rintro ⟨h1, h2⟩
      have hp := heq.mpr h1
      exact ⟨hp, (eachStep_iff_within hR hI (hI s e hs he hp) hes).mpr h2⟩

/-- The invariant rule: where a step that meets `P` keeps the invariant and ends well, every step of such a run does. -/
theorem EachStep.inv {I : σ → Prop} {R : σ → ε → Prop} (h : ∀ s e, I s → P s e → I (step s e) ∧ R s e) :
    ∀ {es : List ε} {s : σ}, I s → EachStep step P s es → EachStep step R s es
  | [], _, _, _ => trivial
  | e :: _, s, hs, hP => ⟨(h s e hs hP.1).2, EachStep.inv h (h s e hs hP.1).1 hP.2⟩

/-- Two conditions on the steps. -/
theorem EachStep.and {Q : σ → ε → Prop} : ∀ {es : List ε} {s : σ}, EachStep step P s es → EachStep step Q s es →
    EachStep step (fun s e => P s e ∧ Q s e) s es
  | [], _, _, _ => trivial
  | _ :: _, _, hP, hQ => ⟨⟨hP.1, hQ.1⟩, hP.2.and hQ.2⟩

/-- What holds of all events holds at every step. -/
theorem eachStep_of_forall {V : ε → Prop} : ∀ {es : List ε} {s : σ}, (∀ e ∈ es, V e) →
    EachStep step (fun _ e => V e) s es
  | [], _, _ => trivial
  | e :: _, _, h => ⟨h e List.mem_cons_self, eachStep_of_forall fun e' he' => h e' (List.mem_cons_of_mem _ he')⟩

/-- The exactness rule, for events that are valid in every state. -/
theorem eachStep_iff {I R : σ → Prop} {V : ε → Prop} (hR : ∀ s e, I s → V e → (P s e ↔ R (step s e)))
    (hI : ∀ s e, I s → V e → P s e → I (step s e)) {es : List ε} {s : σ} (hs : I s) (hV : ∀ e ∈ es, V e) :
    EachStep step P s es ↔ EachStep step (fun s e => R (step s e)) s es :=
  eachStep_iff_within hR hI hs (eachStep_of_forall hV)

/-- **The simulation rule**: a run on one state follows the run on another, if each step that meets `P` keeps the relation
between the two. -/
theorem EachStep.follow {σ' : Type*} {step' : σ' → ε → σ'} {rel : σ' → σ → Prop}
    (hstep : ∀ s' s e, rel s' s → P s e → rel (step' s' e) (step s e)) {es : List ε} : ∀ {s' : σ'} {s : σ}, rel s' s →
      EachStep step P s es → rel (es.foldl step' s') (es.foldl step s) := by
  induction es with
  | nil => exact fun hrel _ => hrel
  | cons e es ih => exact fun hrel h => ih (hstep _ _ e hrel h.1) h.2

/-! ## Runs of a partial step -/

/-- The states that steps meeting `P` reach. -/
inductive Reach (step : σ → ε → Option σ) (P : σ → ε → Prop) (init : σ → Prop) : σ → Prop
  | init {s : σ} : init s → Reach step P init s
  | step {s s' : σ} {e : ε} : Reach step P init s → P s e → step s e = some s' → Reach step P init s'

/-- **The invariant rule.** -/
theorem Reach.inv {step : σ → ε → Option σ} {P : σ → ε → Prop} {init I : σ → Prop} (h0 : ∀ s, init s → I s)
    (hI : ∀ s e s', I s → P s e → step s e = some s' → I s') {s : σ} (h : Reach step P init s) : I s := by
  induction h with
  | init hs => exact h0 _ hs
  | step _ hp hstep ih => exact hI _ _ _ ih hp hstep

section RunAll

variable {step : σ → ε → Option σ} {P : σ → ε → Prop} [∀ s e, Decidable (P s e)] {init : σ → Prop}

/-- The state after a list of events, if all of them are possible and meet `P`. -/
def runAll (step : σ → ε → Option σ) (P : σ → ε → Prop) [∀ s e, Decidable (P s e)] : σ → List ε → Option σ
  | s, [] => some s
  | s, e :: es => if P s e then (step s e).bind (runAll step P · es) else none

theorem Reach.runAll : ∀ {es : List ε} {s s' : σ}, Reach step P init s → runAll step P s es = some s' →
    Reach step P init s'
  | [], s, s', h, hr => by
    cases hr; exact h
  | e :: es, s, s', h, hr => by
    rw [Lib.runAll] at hr
    split_ifs at hr with hp
    obtain ⟨s₁, h1, h2⟩ := Option.bind_eq_some_iff.mp hr
    exact Reach.runAll (h.step hp h1) h2

/-- A run that can be computed reaches a state that can be tested. -/
theorem Reach.of_runAll {s : σ} (h : init s) (es : List ε) (p : σ → Bool)
    (hp : (Lib.runAll step P s es).any p = true) : ∃ s', Reach step P init s' ∧ p s' = true := by
  obtain ⟨s', hs', hp'⟩ := (Option.any_eq_true p _).mp hp
  exact ⟨s', Reach.runAll (.init h) hs', hp'⟩

end RunAll

end Cosmost.Lib
