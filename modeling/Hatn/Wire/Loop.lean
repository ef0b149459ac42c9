import Hatn.Wire.Parser

/-!
# Loops of parsers

`untilOffset` runs a parser again and again until the offset has reached a given
place, as decoders do with the items of a block.  The fuel bounds the number of
rounds; running out of it is an error of its own.
-/

namespace Hatn.Wire.Parser

variable {σ ε τ α β : Type}

/-- Repeat `body` until the offset has reached `stop`. -/
def untilOffset (exhausted : ε) (stop : Nat) (body : α → Parser σ ε α) : Nat → α → Parser σ ε α
  | 0, _ => fail exhausted
  | fuel + 1, x => do
    let o ← offset
    if stop ≤ o then pure x
    else do
      let y ← body x
      untilOffset exhausted stop body fuel y

/-- Run `p` a number of times and collect the results. -/
def times (p : Parser σ ε α) : Nat → Parser σ ε (List α)
  | 0 => pure []
  | n + 1 => do
    let a ← p
    let l ← times p n
    pure (a :: l)

theorem sat_times (Φ : RunProperty σ ε) {p : Parser σ ε α} (h : Φ.Sat p) :
    ∀ n, Φ.Sat (times p n) := by
  intro n
  induction n with
  | zero => exact Φ.sat_pure []
  | succ n ih => exact Φ.sat_bind h fun a => Φ.sat_bind ih fun l => Φ.sat_pure (a :: l)

/-- A property that the rounds have, and the end of the fuel, is one of the loop. -/
theorem sat_untilOffset (Φ : RunProperty σ ε) {exhausted : ε} {stop : Nat}
    {body : α → Parser σ ε α} (he : ∀ o, Φ.holds [] o (.error exhausted))
    (h : ∀ x, Φ.Sat (body x)) : ∀ fuel x, Φ.Sat (untilOffset exhausted stop body fuel x) := by
  intro fuel
  induction fuel with
  | zero => intro x o; exact he o
  | succ fuel ih =>
    intro x o
    apply Φ.satAt_offset_bind
    by_cases hs : stop ≤ o
    · rw [if_pos hs]
      exact Φ.satAt_pure x o
    · rw [if_neg hs]
      exact Φ.satAt_bind (h x o) fun y o' _ => ih y o'

/-- A guarded property of the rounds is one of the loop, with enough fuel, when rounds
with events in `H` advance within `n`. -/
theorem satAt_untilOffset (Φ : RunProperty σ ε) {H : σ → Prop} (hg : Φ.GuardedBy H)
    {exhausted : ε} {n stop : Nat} {body : α → Parser σ ε α}
    (h : ∀ x, ∀ o ≤ n, Φ.SatAt (body x) o)
    (hadv : ∀ x y o o', o ≤ n → (body x).outcome o = .ok (y, o') →
      (∀ s ∈ (body x).trace o, H s) → o < o' ∧ o' ≤ n) :
    ∀ fuel x o, o ≤ n → n < o + fuel → Φ.SatAt (untilOffset exhausted stop body fuel x) o := by
  intro fuel
  induction fuel with
  | zero => intro x o ho hf; omega
  | succ fuel ih =>
    intro x o ho hf
    apply Φ.satAt_offset_bind
    by_cases hs : stop ≤ o
    · rw [if_pos hs]
      exact Φ.satAt_pure x o
    · rw [if_neg hs]
      refine Φ.satAt_bind_guarded hg (h x o ho) fun y o' hr hH => ?_
      obtain ⟨hlt, hle⟩ := hadv x y o o' ho hr hH
      exact ih y o' hle (by omega)

/-! ### Results -/

theorem Yields.times {p : Parser σ ε α} {Q : α → Prop} (h : Yields p Q) :
    ∀ n, Yields (times p n) (fun l => ∀ a ∈ l, Q a) := by
  intro n
  induction n with
  | zero => exact Yields.pure (by simp)
  | succ n ih =>
    refine h.bind fun a ha => ih.bind fun l hl => Yields.pure ?_
    intro b hb
    rcases List.mem_cons.mp hb with rfl | hb
    · exact ha
    · exact hl b hb

/-- What the rounds keep holds behind the loop. -/
theorem Yields.untilOffset {exhausted : ε} {stop : Nat} {body : α → Parser σ ε α} {Q : α → Prop}
    (h : ∀ x, Q x → Yields (body x) Q) :
    ∀ fuel x, Q x → Yields (untilOffset exhausted stop body fuel x) Q := by
  intro fuel
  induction fuel with
  | zero => intro x _; exact Yields.fail
  | succ fuel ih =>
    intro x hx
    refine (Yields.true offset).bind fun o _ => ?_
    by_cases hs : stop ≤ o
    · rw [if_pos hs]
      exact Yields.pure hx
    · rw [if_neg hs]
      exact (h x hx).bind fun y hy => ih y hy

/-- Rounds that commute with `f` make loops that do. -/
theorem outcome_untilOffset_map {exhausted : ε} {stop : Nat} {body : α → Parser σ ε α}
    {body' : β → Parser σ ε β} {f : α → β}
    (h : ∀ x o, (body' (f x)).outcome o = ((body x).outcome o).map (Prod.map f id)) :
    ∀ fuel x o, (untilOffset exhausted stop body' fuel (f x)).outcome o =
      ((untilOffset exhausted stop body fuel x).outcome o).map (Prod.map f id) := by
  intro fuel
  induction fuel with
  | zero => intro x o; rfl
  | succ fuel ih =>
    intro x o
    rw [untilOffset, untilOffset, outcome_bind_ok (outcome_offset o),
      outcome_bind_ok (outcome_offset o)]
    by_cases hs : stop ≤ o
    · rw [if_pos hs, if_pos hs]
      rfl
    · rw [if_neg hs, if_neg hs]
      have hx := h x o
      cases hb : (body x).outcome o with
      | error e =>
        rw [hb] at hx
        rw [outcome_bind_error hb, outcome_bind_error hx]
        rfl
      | ok r =>
        obtain ⟨y, o'⟩ := r
        rw [hb] at hx
        rw [outcome_bind_ok hb, outcome_bind_ok hx]
        exact ih y o'

/-! ### Reading given symbols -/

/-- One more parser of the same kind. -/
theorem Reads.times_succ {B : List τ → Prop} {p : List τ → Parser σ ε α} {l₁ l₂ : List τ} {n : Nat}
    {r : Except ε α} {s : Except ε (List α)} (h : Reads B p l₁ r)
    (ht : Reads B (fun buf => times (p buf) n) l₂ s) :
    Reads B (fun buf => times (p buf) (n + 1)) (l₁ ++ l₂)
      (do let a ← r; let as ← s; return a :: as) := by
  refine h.bind fun a _ => ?_
  have hr := Reads.map (fun l => a :: l) ht
  cases s <;> exact hr

/-- Symbols that a loop with this body reads from the state `x` on, in rounds that take
some of them each, with the outcome `r`. -/
inductive Rounds (B : List τ → Prop) (body : α → List τ → Parser σ ε α) :
    List τ → α → Except ε α → Prop
  | nil {x : α} : Rounds B body [] x (.ok x)
  | cons {l₁ l₂ : List τ} {x y : α} {r : Except ε α} : l₁ ≠ [] → Reads B (body x) l₁ (.ok y) →
      Rounds B body l₂ y r → Rounds B body (l₁ ++ l₂) x r
  | fail {l₁ l₂ : List τ} {x : α} {e : ε} : l₁ ≠ [] → Reads B (body x) l₁ (.error e) →
      Rounds B body (l₁ ++ l₂) x (.error e)

namespace Rounds

variable {B : List τ → Prop} {body : α → List τ → Parser σ ε α} {l l₁ l₂ : List τ} {x : α}

theorem single {r : Except ε α} (hl : l ≠ []) (h : Reads B (body x) l r) :
    Rounds B body l x r := by
  rw [← List.append_nil l]
  cases r with
  | error e => exact .fail hl h
  | ok y => exact .cons hl h .nil

theorem append {r s : Except ε α} (h₁ : Rounds B body l₁ x r)
    (h₂ : ∀ y, r = .ok y → Rounds B body l₂ y s) :
    Rounds B body (l₁ ++ l₂) x (r >>= fun _ => s) := by
  induction h₁ with
  | nil => exact h₂ _ rfl
  | cons hne hb _ ih =>
    rw [List.append_assoc]
    exact .cons hne hb (ih h₂)
  | fail hne hb =>
    rw [List.append_assoc]
    exact .fail hne hb

/-- Without symbols there are no rounds. -/
theorem eq_ok_of_nil {r : Except ε α} (h : Rounds B body [] x r) : r = .ok x := by
  generalize hl : ([] : List τ) = l at h
  cases h with
  | nil => rfl
  | cons hne _ _ => exact absurd (List.append_eq_nil_iff.mp hl.symm).1 hne
  | fail hne _ => exact absurd (List.append_eq_nil_iff.mp hl.symm).1 hne

/-- **The loop runs through the rounds** up to the end of the symbols. -/
theorem outcome_untilOffset {exhausted : ε} {r : Except ε α} (h : Rounds B body l x r) :
    ∀ (buf : List τ) (o : Nat) (rest : List τ) (fuel : Nat), B buf → o ≤ buf.length →
      buf.drop o = l ++ rest → l.length < fuel →
      (untilOffset exhausted (o + l.length) (fun y => body y buf) fuel x).outcome o =
        r.map (fun y => (y, o + l.length)) := by
  induction h with
  | nil =>
    intro buf o rest fuel _ _ _ hf
    obtain ⟨n, rfl⟩ := Nat.exists_eq_add_one.mpr (Nat.zero_lt_of_lt hf)
    rw [untilOffset, outcome_bind_ok (outcome_offset o), if_pos (by simp)]
    rfl
  | @cons l₁ l₂ x y r hne hb _ ih =>
    intro buf o rest fuel hB ho hd hf
    have hpos : 0 < l₁.length := List.length_pos_iff.mpr hne
    rw [List.length_append] at hf ⊢
    rw [List.append_assoc] at hd
    obtain ⟨n, rfl⟩ := Nat.exists_eq_add_one.mpr (Nat.zero_lt_of_lt hf)
    have hle := add_length_le_of_drop ho hd
    rw [untilOffset, outcome_bind_ok (outcome_offset o), if_neg (by omega),
      outcome_bind_ok (hb buf o _ hB ho hd), ← Nat.add_assoc]
    exact ih buf (o + l₁.length) rest n hB hle (drop_add_of_drop hd) (by omega)
  | @fail l₁ l₂ x e hne hb =>
    intro buf o rest fuel hB ho hd hf
    have hpos : 0 < l₁.length := List.length_pos_iff.mpr hne
    rw [List.length_append] at hf ⊢
    rw [List.append_assoc] at hd
    obtain ⟨n, rfl⟩ := Nat.exists_eq_add_one.mpr (Nat.zero_lt_of_lt hf)
    rw [untilOffset, outcome_bind_ok (outcome_offset o), if_neg (by omega),
      outcome_bind_error (hb buf o _ hB ho hd)]
    rfl

end Rounds

end Hatn.Wire.Parser
