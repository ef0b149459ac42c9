import Hatn.Dataunit.Runs

/-!
# The progress of the field loop

Each round of the field loop that does not return moves the offset forward within the
buffer, so that the loop ends.  The lengths taken from the wire have to be `Harmless` for
this: an unknown field must not go back behind its own start, and no object id may reach
over the end of the buffer.  A buffer that lends its bytes also must not have byte arrays
whose length takes the offset back, for which a copying buffer throws.
-/

namespace Hatn.Dataunit

open Hatn.Common Hatn.Wire Hatn.Wire.Parser

namespace Event

/-- A round that moves forward within a buffer of size `n`. -/
def Advances (n : Nat) : Event → Prop
  | iteration start stop => start < stop ∧ stop ≤ n
  | _ => True

/-- A length that keeps the loop going forward. -/
def Harmless (n : Nat) : Event → Prop
  | skip start d o => MovesBack d o → start < o + d - 2 ^ 32
  | declared (.bytes view) d o => view = true → ¬ MovesBack d o
  | declared .objectId d o => d = ObjectId.length → o + d ≤ n
  | _ => True

end Event

/-- All rounds advance, no loop runs for ever and nothing is read outside of the buffer. -/
def LoopsEnd (n : Nat) (t : List Event) (r : Except Failure Nat) : Prop :=
  (∀ e ∈ t, e.Advances n) ∧ r ≠ .error .exhausted ∧ r ≠ .error .outOfBounds

theorem loopsEnd_ok {n o : Nat} {t : List Event} (ha : ∀ e ∈ t, e.Advances n) :
    LoopsEnd n t (.ok o) := ⟨ha, by simp, by simp⟩

theorem loopsEnd_error {n : Nat} {e : Failure} {t : List Event} (ha : ∀ e ∈ t, e.Advances n)
    (he : e.Clean) : LoopsEnd n t (.error e) := ⟨ha, by simpa using he.2, by simpa using he.1⟩

/-- With harmless lengths the loops end and no run goes back. -/
def progressProperty (n : Nat) : RunProperty Event Failure where
  holds t o r := o ≤ n → (∀ e ∈ t, e.Harmless n) →
    LoopsEnd n t r ∧ ∀ o', r = .ok o' → o ≤ o' ∧ o' ≤ n
  nil o := by
    intro ho _
    refine ⟨loopsEnd_ok (by simp), ?_⟩
    rintro _ ⟨⟩
    exact ⟨le_rfl, ho⟩
  append {t t' o o' r} h h' := by
    intro ho hH
    obtain ⟨h1, h2⟩ := h ho fun e he => hH e (List.mem_append_left _ he)
    obtain ⟨hle, hn⟩ := h2 o' rfl
    obtain ⟨h1', h2'⟩ := h' hn fun e he => hH e (List.mem_append_right _ he)
    refine ⟨⟨?_, h1'.2⟩, fun o'' hr => ?_⟩
    · intro e he
      rcases List.mem_append.mp he with he | he
      · exact h1.1 e he
      · exact h1'.1 e he
    · obtain ⟨hle', hn'⟩ := h2' o'' hr
      exact ⟨le_trans hle hle', hn'⟩

theorem progressProperty_guarded (n : Nat) :
    (progressProperty n).GuardedBy (Event.Harmless n) := by
  rintro t o r ⟨e, he, hn⟩ _ hH
  exact absurd (hH e he) hn

section
variable {n o : Nat} {t : List Event}

/-- Runs without rounds that go forward. -/
theorem progressProperty_ok {o' : Nat} (ha : ∀ e ∈ t, e.Advances n) (h : o ≤ o') (h' : o' ≤ n) :
    (progressProperty n).holds t o (.ok o') := by
  intro _ _
  refine ⟨loopsEnd_ok ha, fun o'' hr => ?_⟩
  rw [Except.ok.injEq] at hr
  exact hr ▸ ⟨h, h'⟩

theorem progressProperty_error {e : Failure} (ha : ∀ e ∈ t, e.Advances n) (he : e.Clean) :
    (progressProperty n).holds t o (.error e) := by
  intro _ _
  exact ⟨loopsEnd_error ha he, fun o' hr => by cases hr⟩

theorem progressProperty_outside {r : Except Failure Nat} (h : n < o) :
    (progressProperty n).holds t o r := fun ho => absurd ho (not_le.mpr h)

end

variable {buf : List UInt8} {o : Nat}

theorem progressProperty_numbers {α : Type} {r : List Event × Except Failure (α × Nat)}
    (h : ReadsSome buf o r) : (progressProperty buf.length).holds r.1 o (r.2.map Prod.snd) := by
  cases h with
  | nothing he => exact progressProperty_error (by simp) he
  | failed he _ => exact progressProperty_error (by simp [Event.Advances]) he
  | read _ hk => exact progressProperty_ok (by simp [Event.Advances]) (by omega) hk

theorem progressProperty_bytes {view : Bool} {d : Nat}
    {r : List Event × Except Failure (List UInt8 × Nat)} (ho : o ≤ buf.length)
    (h : TakesBytes view buf d o r) :
    (progressProperty buf.length).holds r.1 o (r.2.map Prod.snd) := by
  cases h with
  | rejected _ _ => exact progressProperty_error (by simp [Event.Advances]) clean_rejected
  | empty _ => exact progressProperty_ok (by simp [Event.Advances]) le_rfl ho
  | taken _ hfit => exact progressProperty_ok (by simp [Event.Advances]) (by omega) hfit
  | thrown _ _ => exact progressProperty_error (by simp [Event.Advances]) clean_thrown
  | viewed hback hv =>
    refine progressProperty_guarded _ ⟨_, List.mem_cons_self .., fun h => ?_⟩
    exact h hv hback

theorem progressProperty_objectId {d : Nat} {r : List Event × Except Failure (ObjectId × Nat)}
    (h : TakesObjectId buf d o r) :
    (progressProperty buf.length).holds r.1 o (r.2.map Prod.snd) := by
  cases h with
  | rejected _ => exact progressProperty_error (by simp [Event.Advances]) clean_rejected
  | refused _ _ _ => exact progressProperty_error (by simp [Event.Advances]) clean_rejected
  | overEnd hd hover =>
    refine progressProperty_guarded _ ⟨_, List.mem_cons_self .., fun h => ?_⟩
    exact absurd (h hd) (not_le.mpr hover)
  | parsed _ hfit => exact progressProperty_ok (by simp [Event.Advances]) (by omega) hfit

/-- A number moves the offset forward. -/
theorem ReadsSome.lt {α : Type} {p : Reader α} (h : ReadsSome buf o (p o)) {a : α} {o' : Nat}
    (hr : p.outcome o = .ok (a, o')) : o < o' ∧ o' ≤ buf.length := by
  unfold outcome at hr
  generalize p o = r at h hr
  cases h with
  | nothing _ => cases hr
  | failed _ _ => cases hr
  | read h0 hk =>
    simp only [Except.ok.injEq, Prod.mk.injEq] at hr
    omega

/-! ### Rounds of the loop -/

/-- With harmless lengths the loops of a run end, and the run ends behind `s`. -/
def ForwardAt {α : Type} (n s : Nat) (p : Reader α) (o : Nat) : Prop :=
  (∀ e ∈ p.trace o, e.Harmless n) →
    LoopsEnd n (p.trace o) ((p.outcome o).map Prod.snd) ∧
      ∀ a o', p.outcome o = .ok (a, o') → s < o' ∧ o' ≤ n

theorem ForwardAt.of_satAt {α : Type} {n s : Nat} {p : Reader α} (ho : o ≤ n) (hs : s < o)
    (h : (progressProperty n).SatAt p o) : ForwardAt n s p o := by
  intro hH
  obtain ⟨h1, h2⟩ := h ho hH
  refine ⟨h1, fun a o' hr => ?_⟩
  obtain ⟨hle, hn⟩ := h2 o' (by rw [hr]; rfl)
  exact ⟨lt_of_lt_of_le hs hle, hn⟩

theorem ForwardAt.satAt {α : Type} {n : Nat} {p : Reader α} (h : ForwardAt n o p o) :
    (progressProperty n).SatAt p o := by
  intro _ hH
  obtain ⟨h1, h2⟩ := h hH
  refine ⟨h1, fun o' hr => ?_⟩
  cases hp : p.outcome o with
  | error e => rw [hp] at hr; cases hr
  | ok r =>
    obtain ⟨a, o''⟩ := r
    rw [hp] at hr
    cases hr
    obtain ⟨hlt, hn⟩ := h2 a o'' hp
    exact ⟨hlt.le, hn⟩

theorem ForwardAt.bind {α β : Type} {n s : Nat} {p : Reader α} {f : α → Reader β}
    (hp : (∀ e ∈ p.trace o, e.Harmless n) → LoopsEnd n (p.trace o) ((p.outcome o).map Prod.snd))
    (hf : ∀ a o', p.outcome o = .ok (a, o') → (∀ e ∈ p.trace o, e.Harmless n) →
      ForwardAt n s (f a) o') : ForwardAt n s (p >>= f) o := by
  intro hH
  have hHp : ∀ e ∈ p.trace o, e.Harmless n := fun e he => hH e (mem_trace_bind he)
  have hpe := hp hHp
  unfold ForwardAt trace outcome at *
  rcases hr : p o with ⟨t, r⟩
  rw [hr] at hpe hHp
  cases r with
  | error e =>
    rw [run_bind_error hr]
    exact ⟨hpe, fun a o' h => by cases h⟩
  | ok r =>
    obtain ⟨a, o'⟩ := r
    rw [run_bind_ok hr] at hH ⊢
    obtain ⟨h1, h2⟩ := hf a o' (by rw [hr]) (by rw [hr]; exact hHp)
      (fun e he => hH e (List.mem_append_right _ he))
    refine ⟨⟨fun e he => ?_, h1.2⟩, h2⟩
    rcases List.mem_append.mp he with he | he
    · exact hpe.1 e he
    · exact h1.1 e he

/-- **Stepping over a field** ends behind its start. -/
theorem skipField_forward {start : Nat} (fieldType : Nat) (hb : Addressable buf)
    (ho : o ≤ buf.length) (hs : start < o) :
    ForwardAt buf.length start (skipField start fieldType buf) o := by
  have h := skipField_run start fieldType hb ho
  unfold ForwardAt trace outcome
  generalize skipField start fieldType buf o = r at h
  intro hH
  have hok : ∀ {t : List Event} {o' : Nat}, (∀ e ∈ t, e.Advances buf.length) → start < o' →
      o' ≤ buf.length →
      LoopsEnd buf.length t (Except.map Prod.snd (.ok ((), o') : Except Failure (Unit × Nat))) ∧
        ∀ a o'', (.ok ((), o') : Except Failure (Unit × Nat)) = .ok (a, o'') →
          start < o'' ∧ o'' ≤ buf.length := by
    intro t o' ha hlt hle
    refine ⟨loopsEnd_ok ha, fun a o'' e => ?_⟩
    simp only [Except.ok.injEq, Prod.mk.injEq] at e
    exact e.2 ▸ ⟨hlt, hle⟩
  have herror : ∀ {t : List Event} {e : Failure}, (∀ e ∈ t, e.Advances buf.length) → e.Clean →
      LoopsEnd buf.length t (Except.map Prod.snd (.error e : Except Failure (Unit × Nat))) ∧
        ∀ a o'', (.error e : Except Failure (Unit × Nat)) = .ok (a, o'') →
          start < o'' ∧ o'' ≤ buf.length := by
    intro t e ha he
    exact ⟨loopsEnd_error ha he, fun a o'' h => by cases h⟩
  cases h with
  | nothing he => exact herror (by simp) he
  | failed he _ => exact herror (by simp [Event.Advances]) he
  | number h0 hk => exact hok (by simp [Event.Advances]) (by omega) hk
  | fixed h0 hk => exact hok (by simp) (by omega) hk
  | rejected _ _ => exact herror (by simp [Event.Advances]) clean_rejected
  | forward h0 _ hk => exact hok (by simp [Event.Advances]) (by omega) hk
  | @back k d hk hd hback =>
    have hlt : start < o + k + d - 2 ^ 32 :=
      hH (.skip start d (o + k)) (List.mem_cons_of_mem _ (List.mem_singleton_self _)) hback
    exact hok (by simp [Event.Advances]) hlt (by omega)

theorem fieldStep_forward {α : Type} {find : Nat → Option (UnitFieldParser α)}
    (hb : Addressable buf) (ho : o ≤ buf.length)
    (hp : ∀ id p, find id = some p → ∀ x, (progressProperty buf.length).Sat (p.fn x)) (x : α) :
    ForwardAt buf.length o (fieldStep find buf x) o := by
  have hrun := readUint32_run (o := o) hb ho
  have htag : (progressProperty buf.length).SatAt (readUint32 buf) o :=
    RunProperty.satAt_of_run _ rfl (progressProperty_numbers hrun)
  have hreject : ∀ {o' : Nat}, ForwardAt buf.length o (reject : Reader α) o' := by
    intro o' _
    exact ⟨loopsEnd_error (fun e he => by cases he) clean_rejected, fun a o'' h => by cases h⟩
  show ForwardAt buf.length o (readUint32 buf >>= _) o
  refine ForwardAt.bind (fun hH => (htag ho hH).1) fun tag o' hr _ => ?_
  obtain ⟨hlt, hle⟩ := hrun.lt hr
  by_cases h0 : tag = 0
  · rw [if_pos h0]
    exact hreject
  rw [if_neg h0]
  cases hf : find (tag >>> 3) with
  | some p =>
    by_cases hw : p.wireType.num ≠ tag &&& 7
    · simp only [if_pos hw]
      exact hreject
    · simp only [if_neg hw]
      exact ForwardAt.of_satAt hle hlt (hp _ p hf x o')
  | none =>
    have hskip := skipField_forward (tag &&& 7) hb hle hlt
    refine ForwardAt.bind (fun hH => (hskip hH).1) fun _ o'' hr'' hH _ => ?_
    obtain ⟨hlt', hle'⟩ := (hskip hH).2 _ _ hr''
    refine ⟨loopsEnd_ok (fun e he => by cases he), fun a o3 h => ?_⟩
    cases h
    exact ⟨hlt', hle'⟩

/-- **A round moves forward**, and so it is logged. -/
theorem fieldRound_forward {α : Type} {find : Nat → Option (UnitFieldParser α)}
    (hb : Addressable buf) (ho : o ≤ buf.length)
    (hp : ∀ id p, find id = some p → ∀ x, (progressProperty buf.length).Sat (p.fn x)) (x : α) :
    ForwardAt buf.length o (fieldRound find buf x) o := by
  have hstep := fieldStep_forward hb ho hp x
  show ForwardAt buf.length o (fieldStep find buf x >>= _) o
  refine ForwardAt.bind (fun hH => (hstep hH).1) fun y o' hr hH _ => ?_
  obtain ⟨hlt, hle⟩ := (hstep hH).2 y o' hr
  refine ⟨loopsEnd_ok (fun e he => ?_), fun a o'' h => ?_⟩
  · have he' : e ∈ [Event.iteration o o'] := he
    rw [List.mem_singleton] at he'
    subst he'
    exact ⟨hlt, hle⟩
  · cases h
    exact ⟨hlt, hle⟩

theorem progressRules (env : Env) (hb : Addressable buf) {fuel : Nat} (hf : buf.length < fuel) :
    ReaderRules (progressProperty buf.length) env buf fuel where
  outside h := progressProperty_outside h
  rejects _ := progressProperty_error (by simp) clean_rejected
  numbers _ h := progressProperty_numbers h
  bytes _ ho _ h := progressProperty_bytes ho h
  objectId _ _ h := progressProperty_objectId h
  refuses _ _ := progressProperty_error (by simp [Event.Advances]) clean_rejected
  enters _ h := progressProperty_ok (by simp [Event.Advances]) le_rfl (by omega)
  scalars he stop l _ := by
    intro o
    by_cases ho : o ≤ buf.length
    · refine satAt_untilOffset _ (progressProperty_guarded _) (fun l o ho => ?_)
        (fun l l' o o' ho hr _ => ?_) fuel l o ho (by omega)
      · exact RunProperty.satAt_bind _
          (RunProperty.satAt_of_run _ rfl (progressProperty_numbers (he o ho)))
          fun _ o' _ => RunProperty.satAt_pure _ _ o'
      · obtain ⟨n, o'', h1, h2⟩ := outcome_bind_inv hr
        cases h2
        exact (he o ho).lt h1
    · exact progressProperty_outside (not_le.mp ho)
  fields hp stop x _ := by
    intro o
    by_cases ho : o ≤ buf.length
    · refine satAt_untilOffset _ (progressProperty_guarded _) (fun x o ho => ?_)
        (fun x y o o' ho hr hH => ?_) fuel x o ho (by omega)
      · exact (fieldRound_forward hb ho hp x).satAt
      · exact (fieldRound_forward hb ho hp x hH).2 y o' hr
    · exact progressProperty_outside (not_le.mp ho)

/-! ### The lengths that stop the progress -/

theorem LoopsEnd.left {n o : Nat} {t t' : List Event} {r : Except Failure Nat}
    (h : LoopsEnd n (t ++ t') r) : LoopsEnd n t (.ok o) :=
  loopsEnd_ok fun e he => h.1 e (List.mem_append_left _ he)

theorem LoopsEnd.right {n : Nat} {t t' : List Event} {r : Except Failure Nat}
    (h : LoopsEnd n (t ++ t') r) : LoopsEnd n t' r :=
  ⟨fun e he => h.1 e (List.mem_append_right _ he), h.2⟩

/-- Runs stay in the buffer, and where the loops end all lengths were harmless. -/
def harmlessProperty (n : Nat) : RunProperty Event Failure where
  holds t o r := o ≤ n → (∀ o', r = .ok o' → o' ≤ n) ∧ (LoopsEnd n t r → ∀ e ∈ t, e.Harmless n)
  nil o := by
    intro ho
    refine ⟨?_, by simp⟩
    rintro _ ⟨⟩
    exact ho
  append {t t' o o' r} h h' := by
    intro ho
    obtain ⟨h1, h2⟩ := h ho
    obtain ⟨h1', h2'⟩ := h' (h1 o' rfl)
    refine ⟨h1', fun hl e he => ?_⟩
    rcases List.mem_append.mp he with he | he
    · exact h2 hl.left e he
    · exact h2' hl.right e he

section
variable {n o : Nat} {t : List Event}

theorem harmlessProperty_ok {o' : Nat} (hH : ∀ e ∈ t, e.Harmless n) (h : o' ≤ n) :
    (harmlessProperty n).holds t o (.ok o') := by
  intro _
  refine ⟨fun o'' hr => ?_, fun _ => hH⟩
  rw [Except.ok.injEq] at hr
  exact hr ▸ h

theorem harmlessProperty_error {e : Failure} (hH : LoopsEnd n t (.error e) → ∀ e ∈ t, e.Harmless n) :
    (harmlessProperty n).holds t o (.error e) :=
  fun _ => ⟨nofun, hH⟩

theorem harmlessProperty_outside {r : Except Failure Nat} (h : n < o) :
    (harmlessProperty n).holds t o r := fun ho => absurd ho (not_le.mpr h)

end

theorem harmlessProperty_numbers {α : Type} {r : List Event × Except Failure (α × Nat)}
    (h : ReadsSome buf o r) : (harmlessProperty buf.length).holds r.1 o (r.2.map Prod.snd) := by
  cases h with
  | nothing _ => exact harmlessProperty_error fun _ => by simp
  | failed _ _ => exact harmlessProperty_error fun _ => by simp [Event.Harmless]
  | read _ hk => exact harmlessProperty_ok (by simp [Event.Harmless]) hk

theorem harmlessProperty_bytes {d : Nat} {r : List Event × Except Failure (List UInt8 × Nat)}
    (ho : o ≤ buf.length) (h : TakesBytes false buf d o r) :
    (harmlessProperty buf.length).holds r.1 o (r.2.map Prod.snd) := by
  cases h with
  | rejected _ _ => exact harmlessProperty_error fun _ => by simp [Event.Harmless]
  | empty _ => exact harmlessProperty_ok (by simp [Event.Harmless]) ho
  | taken _ hfit => exact harmlessProperty_ok (by simp [Event.Harmless]) hfit
  | thrown _ _ => exact harmlessProperty_error fun _ => by simp [Event.Harmless]
  | viewed _ hv => exact absurd hv (by decide)

theorem harmlessProperty_objectId {d : Nat} {r : List Event × Except Failure (ObjectId × Nat)}
    (h : TakesObjectId buf d o r) :
    (harmlessProperty buf.length).holds r.1 o (r.2.map Prod.snd) := by
  have hpair : ∀ {k : Nat}, (d = ObjectId.length → o + d ≤ buf.length) →
      ∀ e ∈ [Event.declared .objectId d o, .slice o k], e.Harmless buf.length := by
    intro k h e he
    simp only [List.mem_cons, List.not_mem_nil, or_false] at he
    rcases he with rfl | rfl
    · exact h
    · trivial
  cases h with
  | rejected h =>
    refine harmlessProperty_error fun _ e he => ?_
    rw [List.mem_singleton] at he
    subst he
    intro hd
    have hd' : d = 25 := hd
    have e25 : toInt d = 25 := by rw [hd']; rfl
    rcases h with h | h
    · omega
    · rw [e25] at h
      exact absurd h (by decide)
  | refused _ _ h =>
    exact harmlessProperty_error fun _ => hpair fun hd => h.resolve_left (not_not.mpr hd)
  | overEnd _ _ => exact harmlessProperty_error fun hl => absurd rfl hl.2.2
  | parsed _ hfit => exact harmlessProperty_ok (hpair fun _ => hfit) hfit

/-- A run ends in the buffer, and all its lengths are harmless where the loops end and the
run ends behind `s`. -/
def HarmlessAt {α : Type} (n s : Nat) (p : Reader α) (o : Nat) : Prop :=
  (∀ a o', p.outcome o = .ok (a, o') → o' ≤ n) ∧
    (LoopsEnd n (p.trace o) ((p.outcome o).map Prod.snd) →
      (∀ a o', p.outcome o = .ok (a, o') → s < o') → ∀ e ∈ p.trace o, e.Harmless n)

theorem HarmlessAt.of_satAt {α : Type} {n s : Nat} {p : Reader α} (ho : o ≤ n)
    (h : (harmlessProperty n).SatAt p o) : HarmlessAt n s p o :=
  ⟨fun a o' hr => (h ho).1 o' (by rw [hr]; rfl), fun hl _ => (h ho).2 hl⟩

theorem HarmlessAt.bind {α β : Type} {n s : Nat} {p : Reader α} {f : α → Reader β} (ho : o ≤ n)
    (hp : (harmlessProperty n).SatAt p o)
    (hf : ∀ a o', p.outcome o = .ok (a, o') → HarmlessAt n s (f a) o') :
    HarmlessAt n s (p >>= f) o := by
  have hp' := (hp ho).2
  unfold HarmlessAt trace outcome at *
  rcases hr : p o with ⟨t, r⟩
  rw [hr] at hp'
  cases r with
  | error e =>
    rw [run_bind_error hr]
    exact ⟨nofun, fun hl _ => hp' hl⟩
  | ok r =>
    obtain ⟨a, o'⟩ := r
    obtain ⟨h1, h2⟩ := hf a o' (by rw [hr])
    rw [run_bind_ok hr]
    refine ⟨h1, fun hl hs e he => ?_⟩
    rcases List.mem_append.mp he with he | he
    · exact hp' hl.left e he
    · exact h2 hl.right hs e he

theorem HarmlessAt.pure {α β : Type} {n s : Nat} {p : Reader α} (b : β) (h : HarmlessAt n s p o) :
    HarmlessAt n s (p >>= fun _ => (Pure.pure b : Reader β)) o := by
  unfold HarmlessAt trace outcome at *
  rcases hr : p o with ⟨t, r⟩
  rw [hr] at h
  cases r with
  | error e =>
    rw [run_bind_error hr]
    exact ⟨nofun, fun hl _ => h.2 hl nofun⟩
  | ok r =>
    obtain ⟨a, o'⟩ := r
    rw [run_bind_ok hr, run_pure]
    obtain ⟨h1, h2⟩ := h
    refine ⟨fun b' o'' hr => ?_, fun hl hs e he => ?_⟩
    · cases hr
      exact h1 a o' rfl
    · have he' : e ∈ t ++ [] := he
      rw [List.append_nil] at he'
      refine h2 hl.left (fun a' o'' hr => ?_) e he'
      cases hr
      exact hs b o' rfl

theorem skipField_harmless (start fieldType : Nat) (hb : Addressable buf) (ho : o ≤ buf.length) :
    HarmlessAt buf.length start (skipField start fieldType buf) o := by
  have h := skipField_run start fieldType hb ho
  unfold HarmlessAt trace outcome
  generalize skipField start fieldType buf o = r at h
  have hok : ∀ {t : List Event} {o' : Nat}, o' ≤ buf.length →
      (start < o' → ∀ e ∈ t, e.Harmless buf.length) →
      (∀ a o'', (.ok ((), o') : Except Failure (Unit × Nat)) = .ok (a, o'') → o'' ≤ buf.length) ∧
        (LoopsEnd buf.length t (Except.map Prod.snd (.ok ((), o') : Except Failure (Unit × Nat))) →
          (∀ a o'', (.ok ((), o') : Except Failure (Unit × Nat)) = .ok (a, o'') → start < o'') →
          ∀ e ∈ t, e.Harmless buf.length) := by
    intro t o' hle hH
    refine ⟨fun a o'' e => ?_, fun _ hs => hH (hs () o' rfl)⟩
    simp only [Except.ok.injEq, Prod.mk.injEq] at e
    exact e.2 ▸ hle
  have herror : ∀ {t : List Event} {e : Failure}, (∀ e ∈ t, e.Harmless buf.length) →
      (∀ a o'', (.error e : Except Failure (Unit × Nat)) = .ok (a, o'') → o'' ≤ buf.length) ∧
        (LoopsEnd buf.length t (Except.map Prod.snd (.error e : Except Failure (Unit × Nat))) →
          (∀ a o'', (.error e : Except Failure (Unit × Nat)) = .ok (a, o'') → start < o'') →
          ∀ e ∈ t, e.Harmless buf.length) :=
    fun hH => ⟨nofun, fun _ _ => hH⟩
  have hpair : ∀ {k d o' : Nat}, (MovesBack d o' → start < o' + d - 2 ^ 32) →
      ∀ e ∈ [Event.slice o k, .skip start d o'], e.Harmless buf.length := by
    intro k d o' h e he
    simp only [List.mem_cons, List.not_mem_nil, or_false] at he
    rcases he with rfl | rfl
    · trivial
    · exact h
  cases h with
  | nothing _ => exact herror (by simp)
  | failed _ _ => exact herror (by simp [Event.Harmless])
  | number _ hk => exact hok hk fun _ => by simp [Event.Harmless]
  | fixed _ hk => exact hok hk fun _ => by simp
  | rejected _ hback => exact herror (hpair fun h => absurd h hback)
  | forward _ h31 hk => exact hok hk fun _ => hpair fun h => absurd h.1 (by omega)
  | back hk hd _ => exact hok (by omega) fun hs => hpair fun _ => hs

theorem fieldRound_harmless {α : Type} {find : Nat → Option (UnitFieldParser α)}
    (hb : Addressable buf)
    (hp : ∀ id p, find id = some p → ∀ x, (harmlessProperty buf.length).Sat (p.fn x)) (x : α) :
    (harmlessProperty buf.length).Sat (fieldRound find buf x) := by
  intro o
  by_cases ho : o ≤ buf.length
  · have htag : (harmlessProperty buf.length).SatAt (readUint32 buf) o :=
      RunProperty.satAt_of_run _ rfl (harmlessProperty_numbers (readUint32_run hb ho))
    have hreject : ∀ {o' : Nat}, HarmlessAt buf.length o (reject : Reader α) o' := by
      intro o'
      refine ⟨nofun, fun _ _ e he => ?_⟩
      cases he
    have hstep : HarmlessAt buf.length o (fieldStep find buf x) o := by
      show HarmlessAt buf.length o (readUint32 buf >>= _) o
      refine HarmlessAt.bind ho htag fun tag o' hr => ?_
      have hle := ((readUint32_run hb ho).lt hr).2
      by_cases h0 : tag = 0
      · rw [if_pos h0]
        exact hreject
      rw [if_neg h0]
      cases hf : find (tag >>> 3) with
      | some p =>
        by_cases hw : p.wireType.num ≠ tag &&& 7
        · simp only [if_pos hw]
          exact hreject
        · simp only [if_neg hw]
          exact HarmlessAt.of_satAt hle (hp _ p hf x o')
      | none => exact (skipField_harmless o (tag &&& 7) hb hle).pure x
    show (harmlessProperty buf.length).SatAt (fieldStep find buf x >>= _) o
    unfold RunProperty.SatAt HarmlessAt trace outcome at *
    rcases hr : fieldStep find buf x o with ⟨t, r⟩
    rw [hr] at hstep
    cases r with
    | error e =>
      rw [run_bind_error hr]
      exact harmlessProperty_error fun hl => hstep.2 hl nofun
    | ok r =>
      obtain ⟨y, o'⟩ := r
      rw [run_bind_ok hr]
      have hle : o' ≤ buf.length := hstep.1 y o' rfl
      refine fun _ => ⟨fun o'' h => ?_, fun hl e he => ?_⟩
      · cases h
        exact hle
      · have hl' : LoopsEnd buf.length (t ++ [.iteration o o']) (.ok o') := hl
        have he' : e ∈ t ++ [.iteration o o'] := he
        rcases List.mem_append.mp he' with he | he
        · refine hstep.2 hl'.left (fun a o'' h => ?_) e he
          cases h
          exact (hl'.1 (.iteration o o') (by simp)).1
        · rw [List.mem_singleton] at he
          subst he
          trivial
  · exact harmlessProperty_outside (not_le.mp ho)

theorem harmlessRules {env : Env} (hv : env.inlineBuffers = false) (hb : Addressable buf)
    (fuel : Nat) : ReaderRules (harmlessProperty buf.length) env buf fuel where
  outside h := harmlessProperty_outside h
  rejects _ := harmlessProperty_error fun _ => by simp
  numbers _ h := harmlessProperty_numbers h
  bytes {view} _ _ _ hview ho _ h := by
    cases view with
    | true => exact absurd (hview rfl) (by simp [hv])
    | false => exact harmlessProperty_bytes ho h
  objectId _ _ h := harmlessProperty_objectId h
  refuses hk _ := by
    rcases hk with rfl | rfl
    · exact harmlessProperty_error fun _ => by simp [Event.Harmless]
    · exact harmlessProperty_error fun _ => by simp [Event.Harmless]
  enters hk h := by
    rcases hk with rfl | rfl
    · exact harmlessProperty_ok (by simp [Event.Harmless]) (by omega)
    · exact harmlessProperty_ok (by simp [Event.Harmless]) (by omega)
  scalars he stop l _ := by
    refine sat_untilOffset _ (fun _ => harmlessProperty_error fun _ => by simp) (fun l o => ?_)
      fuel l
    by_cases ho : o ≤ buf.length
    · exact RunProperty.satAt_bind _
        (RunProperty.satAt_of_run _ rfl (harmlessProperty_numbers (he o ho)))
        fun _ o' _ => RunProperty.satAt_pure _ _ o'
    · exact harmlessProperty_outside (not_le.mp ho)
  fields hp stop x _ :=
    sat_untilOffset _ (fun _ => harmlessProperty_error fun _ => by simp)
      (fun x => fieldRound_harmless hb hp x) fuel x

/-! ### Parses of units -/

/-- The log of a parse and how it ended. -/
def parseLog (env : Env) (fs : List Field) (c : Container) (fuel : Nat) : List Event :=
  (deserialize env fs c.bytes fuel).trace 0

def parseEnd (env : Env) (fs : List Field) (c : Container) (fuel : Nat) : Except Failure Nat :=
  ((deserialize env fs c.bytes fuel).outcome 0).map Prod.snd

/-- **The field loops of a parse move forward and end when all lengths on the wire are
harmless**, and in a buffer that does not lend its bytes only then. -/
theorem loopsEnd_iff_harmless (env : Env) (fs : List Field) (c : Container) (fuel : Nat)
    (hf : c.bytes.length < fuel) :
    ((∀ e ∈ parseLog env fs c fuel, e.Harmless c.bytes.length) →
      LoopsEnd c.bytes.length (parseLog env fs c fuel) (parseEnd env fs c fuel)) ∧
    (env.inlineBuffers = false →
      LoopsEnd c.bytes.length (parseLog env fs c fuel) (parseEnd env fs c fuel) →
      ∀ e ∈ parseLog env fs c fuel, e.Harmless c.bytes.length) := by
  refine ⟨fun hH => ?_, fun hv hl => ?_⟩
  · have h := (progressRules env c.addressable hf).sat_deserialize c.addressable fs 0
    exact (h (Nat.zero_le _) hH).1
  · have h := (harmlessRules hv c.addressable fuel).sat_deserialize c.addressable fs 0
    exact (h (Nat.zero_le _)).2 hl

/-- The bytes of a number. -/
theorem loopsEnd_number :
    LoopsEnd 2 (parseLog ⟨false, fun _ => true⟩ [.mk 2 false (.single (.scalar (.varInt false .w32)))]
        ⟨[0x10, 0x05], by simp [Addressable]⟩ 3)
      (parseEnd ⟨false, fun _ => true⟩ [.mk 2 false (.single (.scalar (.varInt false .w32)))]
        ⟨[0x10, 0x05], by simp [Addressable]⟩ 3) := by
  refine (loopsEnd_iff_harmless ⟨false, fun _ => true⟩
    [.mk 2 false (.single (.scalar (.varInt false .w32)))] ⟨[0x10, 0x05], by simp [Addressable]⟩ 3
    (by decide)).1 fun e he => ?_
  have ht : parseLog ⟨false, fun _ => true⟩ [.mk 2 false (.single (.scalar (.varInt false .w32)))]
      ⟨[0x10, 0x05], by simp [Addressable]⟩ 3 = [.slice 0 1, .slice 1 1, .iteration 0 2] := by
    decide +kernel
  rw [ht] at he
  simp only [List.mem_cons, List.not_mem_nil, or_false] at he
  rcases he with rfl | rfl | rfl
  · trivial
  · trivial
  · trivial

/-- An unknown field whose length is that of its own header, negated. -/
def backwardField : Container := ⟨[0x0A, 0xFA, 0xFF, 0xFF, 0xFF, 0x0F], by simp [Addressable]⟩

theorem fieldRound_backwardField {α : Type} {find : Nat → Option (UnitFieldParser α)}
    (hf : find 1 = none) (x : α) :
    fieldRound find backwardField.bytes x 0 =
      ([.slice 0 1, .slice 1 5, .skip 0 4294967290 6, .iteration 0 0], .ok (x, 0)) := by
  have h1 : readUint32 backwardField.bytes 0 = ([.slice 0 1], .ok (10, 1)) := by
    decide +kernel
  have h2 : skipField 0 2 backwardField.bytes 1 =
      ([.slice 1 5, .skip 0 4294967290 6], .ok ((), 0)) := by decide +kernel
  have h3 : fieldStep find backwardField.bytes x 0 =
      ([.slice 0 1, .slice 1 5, .skip 0 4294967290 6], .ok (x, 0)) := by
    unfold fieldStep
    rw [run_offset_bind, run_bind_ok h1, if_neg (by decide)]
    simp only [show 10 >>> 3 = 1 from rfl, hf, show 10 &&& 7 = 2 from rfl]
    rw [run_bind_ok h2]
    rfl
  unfold fieldRound
  rw [run_offset_bind, run_bind_ok h3]
  rfl

/-- The loop stays at that field for ever. -/
theorem backwardField_never_ends :
    ¬ ∃ fuel, parseEnd ⟨false, fun _ => true⟩
      [.mk 2 false (.single (.scalar (.varInt false .w32)))] backwardField fuel ≠
        .error .exhausted := by
  have hloop : ∀ (fuel stop : Nat) {α : Type} {find : Nat → Option (UnitFieldParser α)} (x : α),
      0 < stop → find 1 = none →
      (untilOffset .exhausted stop (fieldRound find backwardField.bytes) fuel x).outcome 0 =
        .error .exhausted := by
    intro fuel stop α find x hs hf
    induction fuel with
    | zero => rfl
    | succ fuel ih =>
      have hr := fieldRound_backwardField hf x
      show (if stop ≤ 0 then _ else fieldRound find backwardField.bytes x >>= _ :
        Reader α).outcome 0 = _
      rw [if_neg (by omega), outcome_bind_ok (show (fieldRound find backwardField.bytes x).outcome 0 = .ok (x, 0) by
        unfold outcome; rw [hr]), ih]
  rintro ⟨fuel, h⟩
  apply h
  show ((deserialize _ _ _ fuel).outcome 0).map Prod.snd = _
  unfold deserialize deserializeFields
  rw [outcome_bind_error (hloop fuel _ _ (by decide) rfl)]
  rfl

end Hatn.Dataunit
