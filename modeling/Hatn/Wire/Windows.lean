import Hatn.Wire.Loop

/-!
# Parsers on a window of their buffer

A window is the part of a buffer in front of some offset.  A parser `p` on the whole buffer is
compared with a parser `q` on the window: `p` *narrows to* `q` when runs of `p` that keep to the
window are runs of `q`, and runs of `q` are such runs of `p`, as far as `p` ends well at all.  The
rules here put such pairs one after the other and into loops.
-/

namespace Hatn.Wire.Parser

variable {σ ε α β : Type}

/-- A window of a buffer with `size` symbols: where it stops, which events keep to it, and what it
takes for a parser to see all of it. -/
structure Window (σ : Type) where
  size : Nat
  stop : Nat
  stop_le : stop ≤ size
  inside : σ → Prop
  seen : Prop

namespace Window

variable (W : Window σ)

/-- All of the run from `o` keeps to the window. -/
def Keeps (p : Parser σ ε α) (o : Nat) : Prop := ∀ s ∈ p.trace o, W.inside s

/-- The two do the same on the window, when they start there. -/
structure Follows (p q : Parser σ ε α) : Prop where
  within : ∀ {o a o'}, o ≤ W.size → p.outcome o = .ok (a, o') → o' ≤ W.size
  forth : ∀ {o a o'}, W.seen → o ≤ W.stop → p.outcome o = .ok (a, o') → W.Keeps p o →
    o' ≤ W.stop → q.outcome o = .ok (a, o')
  back : ∀ {o a o' r}, o ≤ W.stop → p.outcome o = .ok (a, o') → q.outcome o = .ok r →
    r = (a, o') ∧ o' ≤ W.stop ∧ W.Keeps p o

/-- The two do the same on the window, and from behind the window there is no way back. -/
structure Narrows (p q : Parser σ ε α) : Prop extends W.Follows p q where
  out : ∀ {o a o'}, o ≤ W.size → W.stop < o → p.outcome o = .ok (a, o') → W.Keeps p o → W.stop < o'

/-- Runs that keep to the window and end well end in it. -/
def Lands (p : Parser σ ε α) : Prop :=
  ∀ {o a o'}, o ≤ W.size → p.outcome o = .ok (a, o') → W.Keeps p o → o' ≤ W.stop

end Window

theorem trace_bind_ok {p : Parser σ ε α} {f : α → Parser σ ε β} {o o' : Nat} {a : α}
    (h : p.outcome o = .ok (a, o')) : (p >>= f).trace o = p.trace o ++ (f a).trace o' := by
  show (andThen p f o).1 = _
  unfold outcome at h
  unfold andThen trace
  rcases hp : p o with ⟨t, r⟩
  rw [hp] at h
  simp only at h
  subst h
  rfl

namespace Window

variable {W : Window σ} {p q : Parser σ ε α} {f g : α → Parser σ ε β}

theorem keeps_bind_iff {o o' : Nat} {a : α} (h : p.outcome o = .ok (a, o')) :
    W.Keeps (p >>= f) o ↔ W.Keeps p o ∧ W.Keeps (f a) o' := by
  rw [Keeps, trace_bind_ok h]
  exact List.forall_mem_append

theorem Narrows.pure (a : α) : W.Narrows (Pure.pure a : Parser σ ε α) (Pure.pure a) where
  within ho h := by
    cases h
    exact ho
  forth _ _ h _ _ := h
  back ho h hq := by
    cases h
    cases hq
    exact ⟨rfl, ho, nofun⟩
  out _ ho h _ := by
    cases h
    exact ho

/-- Nothing is to be said where the whole buffer is rejected. -/
theorem Narrows.fail (e : ε) (q : Parser σ ε α) : W.Narrows (fail e) q where
  within _ h := nomatch h
  forth _ _ h := nomatch h
  back _ h := nomatch h
  out _ _ h := nomatch h

/-- **The rule of sequencing.** -/
theorem Narrows.bind (hp : W.Narrows p q)
    (hf : ∀ a o o', p.outcome o = .ok (a, o') → W.Narrows (f a) (g a)) :
    W.Narrows (p >>= f) (q >>= g) where
  within ho h := by
    obtain ⟨a, o', h1, h2⟩ := outcome_bind_inv h
    exact (hf a _ _ h1).within (hp.within ho h1) h2
  forth hs ho h hk ho'' := by
    obtain ⟨a, o', h1, h2⟩ := outcome_bind_inv h
    obtain ⟨hk1, hk2⟩ := (keeps_bind_iff h1).mp hk
    have hsize := hp.within (Nat.le_trans ho W.stop_le) h1
    have ho' : o' ≤ W.stop := by
      by_contra hlt
      exact absurd ((hf a _ _ h1).out hsize (Nat.not_le.mp hlt) h2 hk2) (Nat.not_lt.mpr ho'')
    rw [outcome_bind_ok (hp.forth hs ho h1 hk1 ho')]
    exact (hf a _ _ h1).forth hs ho' h2 hk2 ho''
  back ho h hq := by
    obtain ⟨a, o', h1, h2⟩ := outcome_bind_inv h
    obtain ⟨b, b', hq1, hq2⟩ := outcome_bind_inv hq
    obtain ⟨heq, ho', hk1⟩ := hp.back ho h1 hq1
    cases heq
    obtain ⟨heq, ho'', hk2⟩ := (hf a _ _ h1).back ho' h2 hq2
    exact ⟨heq, ho'', (keeps_bind_iff h1).mpr ⟨hk1, hk2⟩⟩
  out ho hlt h hk := by
    obtain ⟨a, o', h1, h2⟩ := outcome_bind_inv h
    obtain ⟨hk1, hk2⟩ := (keeps_bind_iff h1).mp hk
    exact (hf a _ _ h1).out (hp.within ho h1) (hp.out ho hlt h1 hk1) h2 hk2

/-- Behind a run that lands in the window it does not matter what there is behind the window. -/
theorem Narrows.bind_lands (hp : W.Narrows p q) (hl : W.Lands p)
    (hf : ∀ a o o', p.outcome o = .ok (a, o') → W.Follows (f a) (g a)) :
    W.Narrows (p >>= f) (q >>= g) where
  within ho h := by
    obtain ⟨a, o', h1, h2⟩ := outcome_bind_inv h
    exact (hf a _ _ h1).within (hp.within ho h1) h2
  forth hs ho h hk ho'' := by
    obtain ⟨a, o', h1, h2⟩ := outcome_bind_inv h
    obtain ⟨hk1, hk2⟩ := (keeps_bind_iff h1).mp hk
    have ho' := hl (Nat.le_trans ho W.stop_le) h1 hk1
    rw [outcome_bind_ok (hp.forth hs ho h1 hk1 ho')]
    exact (hf a _ _ h1).forth hs ho' h2 hk2 ho''
  back ho h hq := by
    obtain ⟨a, o', h1, h2⟩ := outcome_bind_inv h
    obtain ⟨b, b', hq1, hq2⟩ := outcome_bind_inv hq
    obtain ⟨heq, ho', hk1⟩ := hp.back ho h1 hq1
    cases heq
    obtain ⟨heq, ho'', hk2⟩ := (hf a _ _ h1).back ho' h2 hq2
    exact ⟨heq, ho'', (keeps_bind_iff h1).mpr ⟨hk1, hk2⟩⟩
  out ho hlt h hk := by
    obtain ⟨a, o', h1, -⟩ := outcome_bind_inv h
    have hk1 := ((keeps_bind_iff h1).mp hk).1
    exact absurd (hl ho h1 hk1) (Nat.not_le.mpr (hp.out ho hlt h1 hk1))

theorem Narrows.offset : W.Narrows (offset : Parser σ ε Nat) offset where
  within ho h := by
    cases h
    exact ho
  forth _ _ h _ _ := h
  back ho h hq := by
    cases h
    cases hq
    exact ⟨rfl, ho, nofun⟩
  out _ ho h _ := by
    cases h
    exact ho

/-- The logs need not be the same. -/
theorem Narrows.log {s s' : σ} (hs : W.inside s) :
    W.Narrows (log s : Parser σ ε Unit) (log s') where
  within ho h := by
    cases h
    exact ho
  forth _ _ h _ _ := h
  back ho h hq := by
    cases h
    cases hq
    refine ⟨rfl, ho, fun t ht => ?_⟩
    obtain rfl := List.mem_singleton.mp ht
    exact hs
  out _ ho h _ := by
    cases h
    exact ho

/-- An event is logged in front, which may tell the offset. -/
theorem Follows.offset_log_bind {p q : Parser σ ε α} (h : W.Follows p q) {s s' : Nat → σ}
    (hs : ∀ o, W.inside (s o)) :
    W.Follows (Parser.offset >>= fun o => Parser.log (s o) >>= fun _ => p)
      (Parser.offset >>= fun o => Parser.log (s' o) >>= fun _ => q) where
  within := h.within
  forth hw ho hp hk ho' := h.forth hw ho hp (fun t ht => hk t (List.mem_cons_of_mem _ ht)) ho'
  back ho hp hq := by
    obtain ⟨heq, ho', hk⟩ := h.back ho hp hq
    refine ⟨heq, ho', fun t ht => ?_⟩
    rcases List.mem_cons.mp ht with rfl | ht
    · exact hs _
    · exact hk t ht

/-- A result that is turned into another one in the same way. -/
theorem Narrows.map (hp : W.Narrows p q) (h : α → β) :
    W.Narrows (p >>= fun a => (Pure.pure (h a) : Parser σ ε β)) (q >>= fun a => Pure.pure (h a)) :=
  hp.bind fun a _ _ _ => .pure (h a)

/-- Runs that end behind the window have none on it that they compare to. -/
theorem Narrows.of_far (h : W.Narrows p q) (e : ε)
    (hfar : ∀ {o a o'}, p.outcome o = .ok (a, o') → W.stop < o') : W.Narrows p (Parser.fail e) where
  within := h.within
  forth _ _ hp _ ho' := absurd ho' (Nat.not_le.mpr (hfar hp))
  back _ _ hq := nomatch hq
  out := h.out

/-! ### Loops -/

theorem Narrows.times (h : W.Narrows p q) : ∀ n, W.Narrows (times p n) (times q n) := by
  intro n
  induction n with
  | zero => exact .pure []
  | succ n ih => exact h.bind fun a _ _ _ => ih.map fun l => a :: l

theorem Narrows.untilOffset {exhausted : ε} {stop : Nat} {body body' : α → Parser σ ε α}
    (h : ∀ x, W.Narrows (body x) (body' x)) : ∀ fuel x,
    W.Narrows (untilOffset exhausted stop body fuel x)
      (untilOffset exhausted stop body' fuel x) := by
  intro fuel
  induction fuel with
  | zero => exact fun x => .fail _ _
  | succ fuel ih =>
    intro x
    refine Narrows.offset.bind fun o _ _ _ => ?_
    by_cases hs : stop ≤ o
    · rw [if_pos hs, if_pos hs]
      exact .pure x
    · rw [if_neg hs, if_neg hs]
      exact (h x).bind fun y _ _ _ => ih y

/-- Runs that keep to the window and end well take something. -/
def Advances (W : Window σ) (p : Parser σ ε α) : Prop :=
  ∀ {o a o'}, o ≤ W.size → p.outcome o = .ok (a, o') → W.Keeps p o → o < o'

theorem Advances.times (h : W.Advances p)
    (hw : ∀ {o a o'}, o ≤ W.size → p.outcome o = .ok (a, o') → o' ≤ W.size) :
    ∀ {n o l o'}, o ≤ W.size → (Parser.times p n).outcome o = .ok (l, o') →
      W.Keeps (Parser.times p n) o → o + n ≤ o' := by
  intro n
  induction n with
  | zero =>
    intro o l o' _ hp _
    cases hp
    exact Nat.le_refl _
  | succ n ih =>
    intro o l o' ho hp hk
    obtain ⟨a, o₁, h1, h2⟩ := outcome_bind_inv hp
    obtain ⟨hk1, hk2⟩ := (keeps_bind_iff h1).mp hk
    obtain ⟨l', o₂, h3, h4⟩ := outcome_bind_inv h2
    cases h4
    have hlt := h ho h1 hk1
    have hrest := ih (hw ho h1) h3 ((keeps_bind_iff h3).mp hk2).1
    omega

end Window

/-- A loop that ends well has reached its offset. -/
theorem stop_le_of_untilOffset {exhausted : ε} {stop : Nat} {body : α → Parser σ ε α} :
    ∀ {fuel x o y o'}, (untilOffset exhausted stop body fuel x).outcome o = .ok (y, o') →
      stop ≤ o' := by
  intro fuel
  induction fuel with
  | zero => exact fun h => nomatch h
  | succ fuel ih =>
    intro x o y o' h
    rw [untilOffset, outcome_bind_ok (outcome_offset o)] at h
    by_cases hs : stop ≤ o
    · rw [if_pos hs] at h
      cases h
      exact hs
    · rw [if_neg hs] at h
      obtain ⟨z, o₁, -, h2⟩ := outcome_bind_inv h
      exact ih h2

end Hatn.Wire.Parser
