import Mathlib.Tactic.Common

/-!
# Two runs over the same events

`untilEnd act ends es`: what each event does, up to the first that ends the run. `untilEnd_eq_iff`: two such runs are
equal exactly when all events are good, if a good event does the same in both and ends neither, and another does not do
the same.
-/

namespace Cosmost.Lib

variable {ε α : Type*}

/-- What each event does, up to the first that ends the run. -/
def untilEnd (act : ε → α) (ends : α → Bool) : List ε → List α
  | [] => []
  | e :: es => act e :: if ends (act e) then [] else untilEnd act ends es

variable {act act' : ε → α} {ends : α → Bool}

@[simp] theorem untilEnd_nil : untilEnd act ends [] = [] := rfl

/-- An event that does not end the run. -/
theorem untilEnd_cons {e : ε} (h : ends (act e) = false) (es : List ε) :
    untilEnd act ends (e :: es) = act e :: untilEnd act ends es := by
  simp [untilEnd, h]

/-- The first event of a run always does something. -/
theorem head_untilEnd (e : ε) (es : List ε) : (untilEnd act ends (e :: es)).head? = some (act e) := rfl

/-- **Two runs are equal exactly when all events are good.** -/
theorem untilEnd_eq_iff {P : ε → Prop} {es : List ε} (hgood : ∀ e ∈ es, P e → act e = act' e ∧ ends (act e) = false)
    (hbad : ∀ e ∈ es, ¬ P e → act e ≠ act' e) :
    untilEnd act ends es = untilEnd act' ends es ↔ ∀ e ∈ es, P e := by
  induction es with
  | nil => simp
  | cons e es ih =>
    have ih' := ih (fun e' h => hgood e' (List.mem_cons_of_mem _ h)) fun e' h => hbad e' (List.mem_cons_of_mem _ h)
    rw [List.forall_mem_cons]
    constructor
    · intro heq
      have hP : P e := by
        by_contra hP
        apply hbad e List.mem_cons_self hP
        have hhead := congrArg List.head? heq
        rwa [head_untilEnd, head_untilEnd, Option.some.injEq] at hhead
      obtain ⟨hsame, hends⟩ := hgood e List.mem_cons_self hP
      rw [untilEnd_cons hends, untilEnd_cons (hsame ▸ hends), hsame, List.cons_inj_right] at heq
      exact ⟨hP, ih'.mp heq⟩
    · rintro ⟨hP, hes⟩
      obtain ⟨hsame, hends⟩ := hgood e List.mem_cons_self hP
      rw [untilEnd_cons hends, untilEnd_cons (hsame ▸ hends), hsame, ih'.mpr hes]

end Cosmost.Lib
