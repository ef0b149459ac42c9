import Mathlib.Data.List.Basic

/-!
# Loops that can fail

A loop over a list whose rounds can end with an error.
-/

namespace Hatn.Order

variable {σ δ ε : Type} {f g : σ → δ → Except ε σ} {l : List δ} {s t : σ} {d : δ} {e : ε}

theorem bind_eq_ok {α β : Type} {x : Except ε α} {k : α → Except ε β} {b : β}
    (h : x.bind k = .ok b) : ∃ a, x = .ok a ∧ k a = .ok b := by
  cases x with
  | error e => cases h
  | ok a => exact ⟨a, rfl, h⟩

theorem map_eq_ok {α β : Type} {x : Except ε α} {k : α → β} {b : β} (h : x.map k = .ok b) :
    ∃ a, x = .ok a ∧ k a = b := by
  cases x with
  | error e => cases h
  | ok a => exact ⟨a, rfl, Except.ok.inj h⟩

theorem foldlM_cons_eq_ok (h : (d :: l).foldlM f s = .ok t) :
    ∃ u, f s d = .ok u ∧ l.foldlM f u = .ok t :=
  bind_eq_ok h

/-- A property that every round keeps holds behind the loop. -/
theorem foldlM_keeps {I : σ → Prop} (hstep : ∀ d ∈ l, ∀ s t, I s → f s d = .ok t → I t)
    (hs : I s) (h : l.foldlM f s = .ok t) : I t := by
  induction l generalizing s with
  | nil =>
    cases h
    exact hs
  | cons d l ih =>
    obtain ⟨u, hu, h⟩ := foldlM_cons_eq_ok h
    exact ih (fun d hd => hstep d (.tail _ hd)) (hstep d (.head _) s u hs hu) h

/-- A loop that ends without an error had every round. -/
theorem foldlM_visits (h : l.foldlM f s = .ok t) (hd : d ∈ l) : ∃ u u', f u d = .ok u' := by
  induction l generalizing s with
  | nil => cases hd
  | cons d' l ih =>
    obtain ⟨u, hu, h⟩ := foldlM_cons_eq_ok h
    cases hd with
    | head => exact ⟨s, u, hu⟩
    | tail _ hd => exact ih h hd

theorem foldlM_split {l₁ l₂ : List δ} (h : (l₁ ++ d :: l₂).foldlM f s = .ok t) :
    ∃ u u', l₁.foldlM f s = .ok u ∧ f u d = .ok u' ∧ l₂.foldlM f u' = .ok t := by
  rw [List.foldlM_append] at h
  obtain ⟨u, hu, h⟩ := bind_eq_ok h
  obtain ⟨u', hu', h⟩ := foldlM_cons_eq_ok h
  exact ⟨u, u', hu, hu', h⟩

theorem foldlM_ne_error (hstep : ∀ s d, f s d ≠ .error e) : l.foldlM f s ≠ .error e := by
  induction l generalizing s with
  | nil => exact nofun
  | cons d l ih =>
    intro h
    change (f s d).bind _ = _ at h
    cases hd : f s d with
    | error e' =>
      rw [hd] at h
      exact hstep s d (hd.trans h)
    | ok u =>
      rw [hd] at h
      exact ih h

/-- Loops whose rounds agree, but for one error. -/
theorem foldlM_eq_of_ne_error (hstep : ∀ s d, f s d ≠ .error e → g s d = f s d)
    (h : l.foldlM f s ≠ .error e) : l.foldlM g s = l.foldlM f s := by
  induction l generalizing s with
  | nil => rfl
  | cons d l ih =>
    change (f s d).bind _ ≠ _ at h
    change (g s d).bind _ = (f s d).bind _
    cases hd : f s d with
    | error e' =>
      rw [hd] at h
      rw [hstep s d (fun he => h (hd.symm.trans he)), hd]
      rfl
    | ok u =>
      rw [hd] at h
      rw [hstep s d (fun he => nomatch hd.symm.trans he), hd]
      exact ih h

end Hatn.Order
