import Hatn.Dataunit.Runs

/-!
# Rounds of the field loop

What holds of the parsers of the fields holds of the rounds, and of the loop with its check of the
required fields: a property of the unit that is parsed (`Yields`), and the same parse with a part
of its result (`Image`).
-/

namespace Hatn.Dataunit

open Hatn.Common Hatn.Wire Hatn.Wire.Parser

/-! ### Properties of the unit -/

section
variable {α : Type} {find : Nat → Option (UnitFieldParser α)} {complete : α → Bool}
  {buf : List UInt8} {fuel : Nat} {Q : α → Prop} {x : α}

/-- **What the parsers of the fields keep**, the rounds keep. -/
theorem yields_fieldRound (hx : Q x) (h : ∀ tag p, tag ≠ 0 → tag < 2 ^ 32 →
      find (tag >>> 3) = some p → p.wireType.num = tag &&& 7 → Yields (p.fn x) Q) :
    Yields (fieldRound find buf x) Q := by
  have hstep : Yields (fieldStep find buf x) Q := by
    refine (Yields.true _).bind fun start _ => readUint32_lt.bind fun tag hlt => ?_
    by_cases h0 : tag = 0
    · rw [if_pos h0]
      exact Yields.fail
    · rw [if_neg h0]
      cases hp : find (tag >>> 3) with
      | none => exact (Yields.true _).bind fun _ _ => Yields.pure hx
      | some p =>
        dsimp only
        by_cases hw : p.wireType.num = tag &&& 7
        · rw [if_neg (not_not.mpr hw)]
          exact h tag p h0 hlt hp hw
        · rw [if_pos hw]
          exact Yields.fail
  exact (Yields.true _).bind fun _ _ => hstep.bind fun y hy =>
    (Yields.true _).bind fun _ _ => (Yields.true _).bind fun _ _ => Yields.pure hy

theorem yields_deserializeFields (hr : ∀ x, Q x → Yields (fieldRound find buf x) Q) (hx : Q x)
    (size : Nat) : Yields (deserializeFields find complete buf fuel x size) Q := by
  refine (Yields.untilOffset hr fuel x hx).bind fun y hy => ?_
  by_cases hc : complete y = true
  · rw [if_pos hc]
    exact Yields.pure hy
  · rw [if_neg hc]
    exact Yields.fail

theorem yields_unit {current : α} (hr : ∀ x, Q x → Yields (fieldRound find buf x) Q) (hf : Q x)
    (hc : Q current) :
    Yields (readUnit (deserializeFields find complete buf fuel x) complete buf current) Q := by
  refine (Yields.true _).bind fun d _ => (Yields.true _).bind fun o _ =>
    (Yields.true _).bind fun _ _ => ?_
  split
  · split
    · exact Yields.pure hc
    · exact Yields.fail
  · split
    · exact Yields.fail
    · exact yields_deserializeFields hr hf _

end

/-! ### Parts of the unit -/

section
variable {α β : Type} {u : α → β} {find : Nat → Option (UnitFieldParser α)}
  {find' : Nat → Option (UnitFieldParser β)} {buf : List UInt8}

/-- **A part of the unit** is parsed as the whole where the parsers of the fields do so. -/
theorem image_fieldRound
    (h : ∀ n, Option.Rel (fun p q => p.wireType = q.wireType ∧ ∀ x, Image u (p.fn x) (q.fn (u x)))
      (find n) (find' n)) (x : α) :
    Image u (fieldRound find buf x) (fieldRound find' buf (u x)) := by
  have hstep : Image u (fieldStep find buf x) (fieldStep find' buf (u x)) := by
    refine .bind_left _ fun start => .bind_left _ fun tag => ?_
    by_cases h0 : tag = 0
    · rw [if_pos h0, if_pos h0]
      exact .fail u _
    · rw [if_neg h0, if_neg h0]
      have hn := h (tag >>> 3)
      generalize find (tag >>> 3) = p at hn ⊢
      generalize find' (tag >>> 3) = q at hn ⊢
      cases hn with
      | none => exact .bind_left _ fun _ => .pure u x
      | @some p q hpq =>
        dsimp only
        rw [hpq.1]
        by_cases hw : q.wireType.num ≠ tag &&& 7
        · rw [if_pos hw, if_pos hw]
          exact .fail u _
        · rw [if_neg hw, if_neg hw]
          exact hpq.2 x
  exact .bind_left _ fun start => hstep.bind fun y => .bind_left _ fun stop =>
    .bind_left _ fun _ => .pure u y

theorem image_deserializeFields {complete : α → Bool} {complete' : β → Bool}
    (h : ∀ x, Image u (fieldRound find buf x) (fieldRound find' buf (u x)))
    (hc : ∀ x, complete' (u x) = complete x) (fuel : Nat) (x : α) (size : Nat) :
    Image u (deserializeFields find complete buf fuel x size)
      (deserializeFields find' complete' buf fuel (u x) size) := by
  refine Image.bind (u := u) (fun o => outcome_untilOffset_map h fuel x o) fun y => ?_
  rw [hc y]
  by_cases hy : complete y = true
  · rw [if_pos hy, if_pos hy]
    exact .pure u y
  · rw [if_neg hy, if_neg hy]
    exact .fail u _

end

end Hatn.Dataunit
