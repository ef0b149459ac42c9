import Mathlib.Logic.Basic

/-!
# Runs of a state machine

A run takes events in turn, and ends at an event that has no step.  A property that is to hold in
every state is compared with a condition on the steps: `goodRun_iff` has both directions from an
invariant that regular steps keep, and that gives the property, where all other steps break
the property.
-/

namespace Hatn.Order

variable {σ ε : Type} (step : σ → ε → Option σ) (Good : σ → Prop) (Regular : σ → ε → Prop)

/-- The property holds in every state of the run. -/
def GoodRun : σ → List ε → Prop
  | s, [] => Good s
  | s, e :: es => Good s ∧ ∀ t, step s e = some t → GoodRun t es

/-- Every step of the run meets the condition. -/
def RegularRun : σ → List ε → Prop
  | _, [] => True
  | s, e :: es => ∀ t, step s e = some t → Regular s e ∧ RegularRun t es

/-- The state behind a run whose events all have a step. -/
def runTo : σ → List ε → Option σ
  | s, [] => some s
  | s, e :: es => (step s e).bind fun t => runTo t es

variable {step Good Regular}

theorem GoodRun.start {s : σ} {es : List ε} (h : GoodRun step Good s es) : Good s := by
  cases es with
  | nil => exact h
  | cons e es => exact h.1

theorem GoodRun.runTo (es : List ε) : ∀ {s t : σ}, GoodRun step Good s es →
    runTo step s es = some t → Good t := by
  induction es with
  | nil =>
    intro s t h hr
    cases hr
    exact h
  | cons e es ih =>
    intro s t h hr
    rw [Order.runTo, Option.bind_eq_some_iff] at hr
    obtain ⟨u, hu, hr⟩ := hr
    exact ih (h.2 u hu) hr

/-- What steps keep holds behind a run. -/
theorem runTo_keeps {I : σ → Prop} (hstep : ∀ s e t, I s → step s e = some t → I t)
    (es : List ε) : ∀ {s t : σ}, I s → runTo step s es = some t → I t := by
  induction es with
  | nil =>
    intro s t hs hr
    cases hr
    exact hs
  | cons e es ih =>
    intro s t hs hr
    rw [Order.runTo, Option.bind_eq_some_iff] at hr
    obtain ⟨u, hu, hr⟩ := hr
    exact ih (hstep s e u hs hu) hr

theorem RegularRun.cons {s t : σ} {e : ε} {es : List ε} (hs : step s e = some t)
    (he : Regular s e) (h : RegularRun step Regular t es) :
    RegularRun step Regular s (e :: es) := by
  intro u hu
  cases hs.symm.trans hu
  exact ⟨he, h⟩

theorem RegularRun.and {Regular' : σ → ε → Prop} (es : List ε) : ∀ {s : σ},
    RegularRun step Regular s es → RegularRun step Regular' s es →
      RegularRun step (fun s e => Regular s e ∧ Regular' s e) s es := by
  induction es with
  | nil => exact fun _ _ => trivial
  | cons e es ih =>
    intro s h h' t ht
    exact ⟨⟨(h t ht).1, (h' t ht).1⟩, ih (h t ht).2 (h' t ht).2⟩

/-- Regular runs are good. -/
theorem RegularRun.good {I : σ → Prop} (hgood : ∀ s, I s → Good s)
    (hstep : ∀ s e t, I s → step s e = some t → Regular s e → I t) (es : List ε) :
    ∀ {s : σ}, I s → RegularRun step Regular s es → GoodRun step Good s es := by
  induction es with
  | nil => exact fun hs _ => hgood _ hs
  | cons e es ih =>
    intro s hs hr
    refine ⟨hgood s hs, fun t ht => ?_⟩
    exact ih (hstep s e t hs ht (hr t ht).1) (hr t ht).2

/-- **Good runs are the regular ones.** -/
theorem goodRun_iff {I : σ → Prop} (hgood : ∀ s, I s → Good s)
    (hstep : ∀ s e t, I s → step s e = some t → Regular s e → I t)
    (hbreak : ∀ s e t, I s → step s e = some t → ¬ Regular s e → ¬ Good t) (es : List ε) :
    ∀ {s : σ}, I s → (GoodRun step Good s es ↔ RegularRun step Regular s es) := by
  induction es with
  | nil => exact fun hs => iff_of_true (hgood _ hs) trivial
  | cons e es ih =>
    intro s hs
    constructor
    · rintro ⟨-, hg⟩ t ht
      have hr : Regular s e :=
        Classical.byContradiction fun hr => hbreak s e t hs ht hr (hg t ht).start
      exact ⟨hr, (ih (hstep s e t hs ht hr)).mp (hg t ht)⟩
    · intro hr
      refine ⟨hgood s hs, fun t ht => ?_⟩
      exact (ih (hstep s e t hs ht (hr t ht).1)).mpr (hr t ht).2

end Hatn.Order
