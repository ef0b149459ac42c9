import Hatn.Order.Runs
import Mathlib.Data.List.Induction

/-!
# Histories of a state machine

What a state machine has come to often rests on what was so at an earlier moment.  A moment is a
state together with the run to it, so that moments can follow each other.
-/

namespace Hatn.Order

variable {σ ε : Type} (step : σ → ε → Option σ) (init : σ)

/-- At the end of the run or before, the property held. -/
def Once (P : List ε → σ → Prop) (es : List ε) : Prop :=
  ∃ us s, us <+: es ∧ runTo step init us = some s ∧ P us s

variable {step init}

theorem Once.here {P : List ε → σ → Prop} {es : List ε} {s : σ}
    (hr : runTo step init es = some s) (h : P es s) : Once step init P es :=
  ⟨es, s, List.prefix_rfl, hr, h⟩

/-- What was so stays past. -/
theorem Once.later {P : List ε → σ → Prop} {es : List ε} (h : Once step init P es) (us : List ε) :
    Once step init P (es ++ us) := by
  obtain ⟨vs, s, hp, hr, hs⟩ := h
  exact ⟨vs, s, hp.trans (List.prefix_append es us), hr, hs⟩

theorem runTo_append : ∀ {es us : List ε} {s : σ},
    runTo step s (es ++ us) = (runTo step s es).bind fun t => runTo step t us := by
  intro es us
  induction es with
  | nil => exact fun {s} => rfl
  | cons e es ih =>
    intro s
    rw [List.cons_append, runTo, runTo]
    cases step s e with
    | none => rfl
    | some t => exact ih

theorem RegularRun.append {Regular : σ → ε → Prop} : ∀ {es us : List ε} {s : σ},
    RegularRun step Regular s (es ++ us) → RegularRun step Regular s es ∧
      ∀ t, runTo step s es = some t → RegularRun step Regular t us := by
  intro es us
  induction es with
  | nil =>
    intro s h
    refine ⟨trivial, ?_⟩
    rintro t ⟨⟩
    exact h
  | cons e es ih =>
    intro s h
    refine ⟨fun t ht => ⟨(h t ht).1, (ih (h t ht).2).1⟩, fun u hu => ?_⟩
    rw [runTo, Option.bind_eq_some_iff] at hu
    obtain ⟨t, ht, hu⟩ := hu
    exact (ih (h t ht).2).2 u hu

/-- **What regular steps keep holds behind a regular run**, where it may speak of the run. -/
theorem RegularRun.history {Regular : σ → ε → Prop} {I : List ε → σ → Prop} (hinit : I [] init)
    (hstep : ∀ es s e t, runTo step init es = some s → I es s → step s e = some t → Regular s e →
      I (es ++ [e]) t) (es : List ε) :
    ∀ {s : σ}, RegularRun step Regular init es → runTo step init es = some s → I es s := by
  induction es using List.reverseRecOn with
  | nil =>
    rintro s - ⟨⟩
    exact hinit
  | append_singleton es e ih =>
    intro t h hr
    obtain ⟨hes, he⟩ := RegularRun.append h
    rw [runTo_append, Option.bind_eq_some_iff] at hr
    obtain ⟨s, hs, hr⟩ := hr
    rw [runTo, Option.bind_eq_some_iff] at hr
    obtain ⟨u, hu, hr⟩ := hr
    cases hr
    exact hstep es s e _ hs (ih hes hs) hu (he s hs _ hu).1

end Hatn.Order
