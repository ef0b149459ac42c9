import Mathlib.Data.List.Basic

/-!
# Parsers over a buffer, with a log

A parser walks over a fixed buffer: it starts at an offset, ends with a result
and a new offset or with an error, and logs events on its way.  Two kinds of
statements about parsers are composed here along `bind`:

* `Reads B p l r`: wherever the symbols `l` stand in a buffer that satisfies `B`,
  the parser reads them with the outcome `r`.
* `RunProperty.Sat Φ p`: every run of `p` has the property `Φ` of its log, its
  first offset and its outcome.

`Yields p Q` says that all results of `p` satisfy `Q`.
-/

namespace Hatn.Wire

/-- A parser with events `σ`, errors `ε` and results `α`, as a function of the offset. -/
def Parser (σ ε α : Type) := Nat → List σ × Except ε (α × Nat)

namespace Parser

variable {σ ε τ α β γ : Type}

def ret (a : α) : Parser σ ε α := fun o => ([], .ok (a, o))

/-- Go on with `f` after `p`; the logs are joined. -/
def andThen (p : Parser σ ε α) (f : α → Parser σ ε β) : Parser σ ε β := fun o =>
  match p o with
  | (t, .error e) => (t, .error e)
  | (t, .ok (a, o')) => (t ++ (f a o').1, (f a o').2)

instance : Monad (Parser σ ε) where
  pure := ret
  bind := andThen

def fail (e : ε) : Parser σ ε α := fun _ => ([], .error e)

def log (s : σ) : Parser σ ε Unit := fun o => ([s], .ok ((), o))

def offset : Parser σ ε Nat := fun o => ([], .ok (o, o))

def seek (f : Nat → Nat) : Parser σ ε Unit := fun o => ([], .ok ((), f o))

/-- The outcome of a run. -/
def outcome (p : Parser σ ε α) (o : Nat) : Except ε (α × Nat) := (p o).2

/-- The log of a run. -/
def trace (p : Parser σ ε α) (o : Nat) : List σ := (p o).1

@[simp] theorem outcome_pure (a : α) (o : Nat) :
    (pure a : Parser σ ε α).outcome o = .ok (a, o) := rfl

@[simp] theorem outcome_fail (e : ε) (o : Nat) :
    (fail e : Parser σ ε α).outcome o = .error e := rfl

@[simp] theorem outcome_log (s : σ) (o : Nat) :
    (log s : Parser σ ε Unit).outcome o = .ok ((), o) := rfl

@[simp] theorem outcome_offset (o : Nat) : (offset : Parser σ ε Nat).outcome o = .ok (o, o) := rfl

@[simp] theorem outcome_seek (f : Nat → Nat) (o : Nat) :
    (seek f : Parser σ ε Unit).outcome o = .ok ((), f o) := rfl

theorem outcome_bind_ok {p : Parser σ ε α} {f : α → Parser σ ε β} {o o' : Nat} {a : α}
    (h : p.outcome o = .ok (a, o')) : (p >>= f).outcome o = (f a).outcome o' := by
  show (andThen p f o).2 = _
  unfold outcome at h
  unfold andThen
  rcases hp : p o with ⟨t, r⟩
  rw [hp] at h
  simp only at h
  subst h
  rfl

theorem outcome_bind_error {p : Parser σ ε α} {f : α → Parser σ ε β} {o : Nat} {e : ε}
    (h : p.outcome o = .error e) : (p >>= f).outcome o = .error e := by
  show (andThen p f o).2 = _
  unfold outcome at h
  unfold andThen
  rcases hp : p o with ⟨t, r⟩
  rw [hp] at h
  simp only at h
  subst h
  rfl

/-- A run of a bind that ends well runs through both parts. -/
theorem outcome_bind_inv {p : Parser σ ε α} {f : α → Parser σ ε β} {o o'' : Nat} {b : β}
    (h : (p >>= f).outcome o = .ok (b, o'')) :
    ∃ a o', p.outcome o = .ok (a, o') ∧ (f a).outcome o' = .ok (b, o'') := by
  cases hp : p.outcome o with
  | error e => rw [outcome_bind_error hp] at h; cases h
  | ok r =>
    obtain ⟨a, o'⟩ := r
    rw [outcome_bind_ok hp] at h
    exact ⟨a, o', rfl, h⟩

/-- A run ends well as soon as it ends at some offset. -/
theorem exists_of_map_snd {r : Except ε (α × Nat)} {o : Nat} (h : r.map Prod.snd = .ok o) :
    ∃ a, r = .ok (a, o) := by
  cases r with
  | error e => cases h
  | ok r =>
    cases h
    exact ⟨r.1, rfl⟩

/-! ### Runs of sequences -/

theorem run_pure (a : α) (o : Nat) : (pure a : Parser σ ε α) o = ([], .ok (a, o)) := rfl

/-- A run behind the log `t`. -/
def behind (t : List σ) (r : List σ × Except ε (α × Nat)) : List σ × Except ε (α × Nat) :=
  (t ++ r.1, r.2)

theorem run_log_bind (s : σ) (f : Unit → Parser σ ε α) (o : Nat) :
    (log s >>= f) o = behind [s] (f () o) := rfl

theorem run_offset_bind (f : Nat → Parser σ ε α) (o : Nat) :
    (offset >>= f) o = f o o := rfl

theorem run_bind_ok {p : Parser σ ε α} {f : α → Parser σ ε β} {o o' : Nat} {a : α} {t : List σ}
    (h : p o = (t, .ok (a, o'))) : (p >>= f) o = behind t (f a o') := by
  show andThen p f o = _
  rw [andThen, h]
  rfl

theorem run_bind_error {p : Parser σ ε α} {f : α → Parser σ ε β} {o : Nat} {e : ε} {t : List σ}
    (h : p o = (t, .error e)) : (p >>= f) o = (t, .error e) := by
  show andThen p f o = _
  rw [andThen, h]

/-! ### Reading given symbols -/

/-- **Wherever `l` stands in a buffer with `B`, `p` reads it with the outcome `r`.** -/
def Reads (B : List τ → Prop) (p : List τ → Parser σ ε α) (l : List τ) (r : Except ε α) : Prop :=
  ∀ (buf : List τ) (o : Nat) (rest : List τ), B buf → o ≤ buf.length → buf.drop o = l ++ rest →
    (p buf).outcome o = r.map (fun a => (a, o + l.length))

theorem drop_add_of_drop {buf l rest : List τ} {o : Nat} (h : buf.drop o = l ++ rest) :
    buf.drop (o + l.length) = rest := by
  rw [← List.drop_drop, h, List.drop_left]

theorem add_length_le_of_drop {buf l rest : List τ} {o : Nat} (ho : o ≤ buf.length)
    (h : buf.drop o = l ++ rest) : o + l.length ≤ buf.length := by
  have hl := congrArg List.length h
  rw [List.length_drop, List.length_append] at hl
  omega

theorem Reads.pure {B : List τ → Prop} (a : α) :
    Reads B (fun _ => (Pure.pure a : Parser σ ε α)) [] (.ok a) := by
  intro buf o rest _ _ _
  rfl

/-- **The rule of sequencing**: the second parser goes on behind the symbols of the first. -/
theorem Reads.bind {B : List τ → Prop} {p : List τ → Parser σ ε α}
    {f : α → List τ → Parser σ ε β} {l₁ l₂ : List τ} {r : Except ε α} {s : α → Except ε β}
    (hp : Reads B p l₁ r) (hf : ∀ a, r = .ok a → Reads B (f a) l₂ (s a)) :
    Reads B (fun buf => p buf >>= fun a => f a buf) (l₁ ++ l₂) (r >>= s) := by
  intro buf o rest hB ho h
  rw [List.append_assoc] at h
  cases r with
  | error e =>
    rw [outcome_bind_error (hp buf o (l₂ ++ rest) hB ho h)]
    rfl
  | ok a =>
    rw [outcome_bind_ok (hp buf o (l₂ ++ rest) hB ho h),
      hf a rfl buf (o + l₁.length) rest hB (add_length_le_of_drop ho h) (drop_add_of_drop h),
      List.length_append, Nat.add_assoc]
    rfl

theorem Reads.bind_ok {B : List τ → Prop} {p : List τ → Parser σ ε α}
    {f : α → List τ → Parser σ ε β} {l₁ l₂ : List τ} {a : α} {r : Except ε β}
    (hp : Reads B p l₁ (.ok a)) (hf : Reads B (f a) l₂ r) :
    Reads B (fun buf => p buf >>= fun a => f a buf) (l₁ ++ l₂) r :=
  Reads.bind (s := fun _ => r) hp fun b hb => by
    cases hb
    exact hf

/-- The second parser takes no symbols. -/
theorem Reads.bind_nil {B : List τ → Prop} {p : List τ → Parser σ ε α}
    {f : α → List τ → Parser σ ε β} {l : List τ} {r : Except ε α} {s : α → Except ε β}
    (hp : Reads B p l r) (hf : ∀ a, r = .ok a → Reads B (f a) [] (s a)) :
    Reads B (fun buf => p buf >>= fun a => f a buf) l (r >>= s) := by
  have h := hp.bind hf
  rwa [List.append_nil] at h

theorem Reads.map {B : List τ → Prop} {p : List τ → Parser σ ε α} {l : List τ} {r : Except ε α}
    (g : α → β) (hp : Reads B p l r) :
    Reads B (fun buf => p buf >>= fun a => (Pure.pure (g a) : Parser σ ε β)) l (r.map g) := by
  have h := hp.bind_nil fun a _ => Reads.pure (g a)
  cases r <;> exact h

theorem Reads.fail {B : List τ → Prop} (l : List τ) (e : ε) :
    Reads B (fun _ => (fail e : Parser σ ε α)) l (.error e) := by
  intro buf o rest _ _ _
  rfl

/-- Reading the offset and writing to the log take no symbols. -/
theorem Reads.offset_bind {B : List τ → Prop} {f : Nat → List τ → Parser σ ε α} {l : List τ}
    {r : Except ε α} (h : ∀ o, Reads B (f o) l r) :
    Reads B (fun buf => offset >>= fun o => f o buf) l r :=
  fun buf o rest hB ho hd => h o buf o rest hB ho hd

theorem Reads.log_bind {B : List τ → Prop} {f : List τ → Parser σ ε α} {l : List τ}
    {r : Except ε α} (s : σ) (h : Reads B f l r) :
    Reads B (fun buf => log s >>= fun _ => f buf) l r :=
  fun buf o rest hB ho hd => h buf o rest hB ho hd

/-! ### Properties of runs -/

/-- A property of the log, the first offset and the outcome of a run that is kept
when runs are put one after the other. -/
structure RunProperty (σ ε : Type) where
  holds : List σ → Nat → Except ε Nat → Prop
  nil : ∀ o, holds [] o (.ok o)
  append : ∀ {t t' : List σ} {o o' : Nat} {r : Except ε Nat},
    holds t o (.ok o') → holds t' o' r → holds (t ++ t') o r

/-- Every run of `p` from `o` has the property. -/
def RunProperty.SatAt (Φ : RunProperty σ ε) (p : Parser σ ε α) (o : Nat) : Prop :=
  Φ.holds (p.trace o) o ((p.outcome o).map Prod.snd)

/-- Every run of `p` has the property. -/
def RunProperty.Sat (Φ : RunProperty σ ε) (p : Parser σ ε α) : Prop := ∀ o, Φ.SatAt p o

theorem RunProperty.satAt_pure (Φ : RunProperty σ ε) (a : α) (o : Nat) :
    Φ.SatAt (Pure.pure a : Parser σ ε α) o := Φ.nil o

/-- **The rule of sequencing.**  The rest of the run starts where the first part ended. -/
theorem RunProperty.satAt_bind (Φ : RunProperty σ ε) {p : Parser σ ε α} {f : α → Parser σ ε β}
    {o : Nat} (hp : Φ.SatAt p o)
    (hf : ∀ a o', p.outcome o = .ok (a, o') → Φ.SatAt (f a) o') : Φ.SatAt (p >>= f) o := by
  unfold SatAt trace outcome at *
  show Φ.holds (andThen p f o).1 o ((andThen p f o).2.map Prod.snd)
  unfold andThen
  rcases hr : p o with ⟨t, r⟩
  rw [hr] at hp hf
  cases r with
  | error e => exact hp
  | ok r =>
    obtain ⟨a, o'⟩ := r
    exact Φ.append hp (hf a o' rfl)

theorem RunProperty.sat_bind (Φ : RunProperty σ ε) {p : Parser σ ε α} {f : α → Parser σ ε β}
    (hp : Φ.Sat p) (hf : ∀ a, Φ.Sat (f a)) : Φ.Sat (p >>= f) :=
  fun o => Φ.satAt_bind (hp o) (fun a o' _ => hf a o')

theorem RunProperty.sat_pure (Φ : RunProperty σ ε) (a : α) :
    Φ.Sat (Pure.pure a : Parser σ ε α) := fun o => Φ.nil o

theorem RunProperty.satAt_of_run (Φ : RunProperty σ ε) {p : Parser σ ε α} {o : Nat}
    {r : List σ × Except ε (α × Nat)} (hr : p o = r) (h : Φ.holds r.1 o (r.2.map Prod.snd)) :
    Φ.SatAt p o := by
  subst hr
  exact h

/-- Reading the offset changes nothing. -/
theorem RunProperty.satAt_offset_bind (Φ : RunProperty σ ε) {f : Nat → Parser σ ε α} {o : Nat}
    (h : Φ.SatAt (f o) o) : Φ.SatAt (offset >>= f) o := h

/-- An event is logged first. -/
theorem RunProperty.satAt_log_bind (Φ : RunProperty σ ε) {s : σ} {f : Unit → Parser σ ε α}
    {o : Nat} (hs : Φ.holds [s] o (.ok o)) (h : Φ.SatAt (f ()) o) : Φ.SatAt (log s >>= f) o :=
  Φ.append hs h

/-- A property that says nothing of a run with an event outside of `H`. -/
def RunProperty.GuardedBy (Φ : RunProperty σ ε) (H : σ → Prop) : Prop :=
  ∀ {t : List σ} {o : Nat} {r : Except ε Nat}, (∃ s ∈ t, ¬ H s) → Φ.holds t o r

theorem mem_trace_bind {p : Parser σ ε α} {f : α → Parser σ ε β} {o : Nat} {s : σ}
    (h : s ∈ p.trace o) : s ∈ (p >>= f).trace o := by
  show s ∈ (andThen p f o).1
  unfold trace at h
  unfold andThen
  rcases hp : p o with ⟨t, r⟩
  rw [hp] at h
  cases r with
  | error e => exact h
  | ok r => exact List.mem_append_left _ h

/-- For a guarded property the rest of a run only matters behind events in `H`. -/
theorem RunProperty.satAt_bind_guarded (Φ : RunProperty σ ε) {H : σ → Prop} (hg : Φ.GuardedBy H)
    {p : Parser σ ε α} {f : α → Parser σ ε β} {o : Nat} (hp : Φ.SatAt p o)
    (hf : ∀ a o', p.outcome o = .ok (a, o') → (∀ s ∈ p.trace o, H s) → Φ.SatAt (f a) o') :
    Φ.SatAt (p >>= f) o := by
  by_cases hH : ∀ s ∈ p.trace o, H s
  · exact Φ.satAt_bind hp fun a o' h => hf a o' h hH
  · push Not at hH
    obtain ⟨s, hs, hn⟩ := hH
    exact hg ⟨s, mem_trace_bind hs, hn⟩

/-! ### Properties of results -/

/-- Every result of `p` satisfies `Q`. -/
def Yields (p : Parser σ ε α) (Q : α → Prop) : Prop :=
  ∀ o a o', p.outcome o = .ok (a, o') → Q a

theorem Yields.bind {p : Parser σ ε α} {f : α → Parser σ ε β} {P : α → Prop} {Q : β → Prop}
    (hp : Yields p P) (hf : ∀ a, P a → Yields (f a) Q) : Yields (p >>= f) Q := by
  intro o b o'' h
  obtain ⟨a, o', h1, h2⟩ := outcome_bind_inv h
  exact hf a (hp o a o' h1) o' b o'' h2

theorem Yields.pure {a : α} {Q : α → Prop} (h : Q a) :
    Yields (Pure.pure a : Parser σ ε α) Q := by
  intro o b o' hb
  rw [outcome_pure, Except.ok.injEq, Prod.mk.injEq] at hb
  exact hb.1 ▸ h

theorem Yields.fail {e : ε} {Q : α → Prop} : Yields (fail e : Parser σ ε α) Q := by
  intro o b o' hb
  cases hb

theorem Yields.and {p : Parser σ ε α} {P Q : α → Prop} (hp : Yields p P) (hq : Yields p Q) :
    Yields p (fun a => P a ∧ Q a) := fun o a o' h => ⟨hp o a o' h, hq o a o' h⟩

theorem Yields.true (p : Parser σ ε α) : Yields p (fun _ => True) := fun _ _ _ _ => trivial

/-! ### Images -/

/-- `q` does what `p` does, with the image of its result. -/
def Image (u : α → β) (p : Parser σ ε α) (q : Parser σ ε β) : Prop :=
  ∀ o, q.outcome o = (p.outcome o).map (Prod.map u id)

theorem Image.refl (p : Parser σ ε α) : Image id p p := by
  intro o
  cases p.outcome o <;> rfl

theorem Image.pure (u : α → β) (a : α) :
    Image u (Pure.pure a : Parser σ ε α) (Pure.pure (u a)) := fun _ => rfl

theorem Image.fail (u : α → β) (e : ε) : Image u (fail e : Parser σ ε α) (fail e) := fun _ => rfl

theorem Image.bind {γ δ : Type} {u : α → β} {w : γ → δ} {p : Parser σ ε α} {q : Parser σ ε β}
    {f : α → Parser σ ε γ} {g : β → Parser σ ε δ} (h : Image u p q)
    (hf : ∀ a, Image w (f a) (g (u a))) : Image w (p >>= f) (q >>= g) := by
  intro o
  have ho := h o
  cases hp : p.outcome o with
  | error e =>
    rw [hp] at ho
    rw [outcome_bind_error hp, outcome_bind_error ho]
    rfl
  | ok r =>
    rw [hp] at ho
    rw [outcome_bind_ok hp, outcome_bind_ok ho]
    exact hf r.1 r.2

/-- The two start alike. -/
theorem Image.bind_left {γ δ : Type} {w : γ → δ} (p : Parser σ ε α) {f : α → Parser σ ε γ}
    {g : α → Parser σ ε δ} (hf : ∀ a, Image w (f a) (g a)) : Image w (p >>= f) (p >>= g) :=
  (Image.refl p).bind hf

/-- Returning an image of the result. -/
theorem Image.map (u : α → β) (p : Parser σ ε α) :
    Image u p (p >>= fun a => (Pure.pure (u a) : Parser σ ε β)) := by
  intro o
  cases hp : p.outcome o with
  | error e => exact outcome_bind_error hp
  | ok r => exact outcome_bind_ok hp

/-- Something is added to the result. -/
theorem Image.drop {v : α → β} {w : β → α} (h : ∀ a, w (v a) = a) (p : Parser σ ε α) :
    Image w (p >>= fun a => (Pure.pure (v a) : Parser σ ε β)) p := by
  intro o
  rw [Image.map v p o]
  cases p.outcome o with
  | error e => rfl
  | ok r =>
    show _ = Except.ok (w (v r.1), r.2)
    rw [h]

end Parser

end Hatn.Wire
