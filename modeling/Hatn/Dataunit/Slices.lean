import Hatn.Dataunit.Runs

/-!
# The slices that parsers read

A parser of a field reads, or hands to a loader, only slices of the buffer, and a length
that does not fit ends it with nothing read.  This holds as long as the lengths are
`Checked`: the checks of the source miss byte arrays whose length is negative as an `int`
and takes the offset back into the buffer, and object ids that reach over the end.
-/

namespace Hatn.Dataunit

open Hatn.Common Hatn.Wire Hatn.Wire.Parser

namespace Event

/-- A slice is one of a buffer of size `n`. -/
def InBounds (n : Nat) : Event → Prop
  | slice o k => o + k ≤ n
  | _ => True

/-- A length that does not fit behind its offset. -/
def Unfit (n : Nat) : Event → Prop
  | declared _ d o => n < o + d
  | _ => False

/-- A length that the checks of its reader are made for. -/
def Checked (n : Nat) : Event → Prop
  | declared (.bytes _) d o => ¬ MovesBack d o
  | declared .objectId d o => d = 0 ∨ (ObjectId.length : Int) < toInt d ∨ o + d ≤ n
  | _ => True

end Event

/-- Slices are in bounds, and an unfit length is the last thing before a rejection. -/
def SlicesFit (n : Nat) (t : List Event) (r : Except Failure Nat) : Prop :=
  (∀ e ∈ t, e.InBounds n) ∧ (∀ e ∈ t.dropLast, ¬ e.Unfit n) ∧
    ((∃ e ∈ t, e.Unfit n) → r = .error .rejected)

theorem SlicesFit.append {n o : Nat} {t t' : List Event} {r : Except Failure Nat}
    (h : SlicesFit n t (.ok o)) (h' : SlicesFit n t' r) : SlicesFit n (t ++ t') r := by
  obtain ⟨h1, h2, h3⟩ := h
  obtain ⟨h1', h2', h3'⟩ := h'
  have hfit : ∀ e ∈ t, ¬ e.Unfit n := by
    intro e he hu
    have hr := h3 ⟨e, he, hu⟩
    cases hr
  refine ⟨?_, ?_, ?_⟩
  · intro e he
    rcases List.mem_append.mp he with he | he
    · exact h1 e he
    · exact h1' e he
  · intro e he
    by_cases hn : t' = []
    · rw [hn, List.append_nil] at he
      exact h2 e he
    · rw [List.dropLast_append_of_ne_nil hn] at he
      rcases List.mem_append.mp he with he | he
      · exact hfit e he
      · exact h2' e he
  · rintro ⟨e, he, hu⟩
    rcases List.mem_append.mp he with he | he
    · exact absurd hu (hfit e he)
    · exact h3' ⟨e, he, hu⟩

/-- Runs stay in the buffer; with checked lengths their slices fit, and an unchecked
length is followed by a slice that does not. -/
def sliceProperty (n : Nat) : RunProperty Event Failure where
  holds t o r := o ≤ n → (∀ o', r = .ok o' → o' ≤ n) ∧
    ((∀ e ∈ t, e.Checked n) → SlicesFit n t r) ∧
    ((∃ e ∈ t, ¬ e.Checked n) → ∃ e ∈ t, ¬ e.InBounds n)
  nil o := by
    intro ho
    simp [SlicesFit, ho]
  append {t t' o o' r} h h' := by
    intro ho
    obtain ⟨h1, h2, h3⟩ := h ho
    obtain ⟨h1', h2', h3'⟩ := h' (h1 o' rfl)
    refine ⟨h1', ?_, ?_⟩
    · intro hc
      exact (h2 fun e he => hc e (List.mem_append_left _ he)).append
        (h2' fun e he => hc e (List.mem_append_right _ he))
    · rintro ⟨e, he, hc⟩
      rcases List.mem_append.mp he with he | he
      · obtain ⟨e', he', hi⟩ := h3 ⟨e, he, hc⟩
        exact ⟨e', List.mem_append_left _ he', hi⟩
      · obtain ⟨e', he', hi⟩ := h3' ⟨e, he, hc⟩
        exact ⟨e', List.mem_append_right _ he', hi⟩

theorem le_of_ok {a n : Nat} (h : a ≤ n) :
    ∀ o', (Except.ok a : Except Failure Nat) = .ok o' → o' ≤ n := by
  intro o' e
  rw [Except.ok.injEq] at e
  exact e ▸ h

theorem le_of_error {e : Failure} {n : Nat} :
    ∀ o', (Except.error e : Except Failure Nat) = .ok o' → o' ≤ n := by
  intro o' h
  cases h

section
variable {n o : Nat} {t : List Event} {r : Except Failure Nat}

/-- Runs with checked lengths only. -/
theorem sliceProperty_of_checked (hr : ∀ o', r = .ok o' → o' ≤ n) (hc : ∀ e ∈ t, e.Checked n)
    (h : SlicesFit n t r) : (sliceProperty n).holds t o r := by
  intro _
  refine ⟨hr, fun _ => h, ?_⟩
  rintro ⟨e, he, hne⟩
  exact absurd (hc e he) hne

/-- Runs with a slice out of bounds behind an unchecked length. -/
theorem sliceProperty_of_unchecked (hr : ∀ o', r = .ok o' → o' ≤ n) {e e' : Event} (he : e ∈ t)
    (hc : ¬ e.Checked n) (he' : e' ∈ t) (hi : ¬ e'.InBounds n) : (sliceProperty n).holds t o r :=
  fun _ => ⟨hr, fun h => absurd (h e he) hc, fun _ => ⟨e', he', hi⟩⟩

end

variable {buf : List UInt8} {o : Nat}

theorem sliceProperty_numbers {α : Type} {r : List Event × Except Failure (α × Nat)}
    (h : ReadsSome buf o r) : (sliceProperty buf.length).holds r.1 o (r.2.map Prod.snd) := by
  have hs : ∀ {k : Nat} {q : Except Failure Nat}, o + k ≤ buf.length →
      SlicesFit buf.length [.slice o k] q := by
    intro k q hk
    refine ⟨by simpa [Event.InBounds] using hk, by simp, by simp [Event.Unfit]⟩
  cases h with
  | nothing _ => exact sliceProperty_of_checked le_of_error (by simp) (by simp [SlicesFit])
  | failed _ hk => exact sliceProperty_of_checked le_of_error (by simp [Event.Checked]) (hs hk)
  | read _ hk =>
    exact sliceProperty_of_checked (le_of_ok hk) (by simp [Event.Checked]) (hs hk)

/-- A length alone: it fits, or the run ends with a rejection. -/
theorem sliceProperty_declared {n d : Nat} {k : LengthKind} {r : Except Failure Nat}
    (hr : ∀ o', r = .ok o' → o' ≤ n) (hc : (Event.declared k d o).Checked n)
    (h : o + d ≤ n ∨ r = .error .rejected) :
    (sliceProperty n).holds [.declared k d o] o r := by
  refine sliceProperty_of_checked hr (by simpa using hc) ⟨by simp [Event.InBounds], by simp, ?_⟩
  rintro ⟨e, he, hu⟩
  rw [List.mem_singleton] at he
  subst he
  rcases h with h | h
  · exact absurd hu (not_lt.mpr h)
  · exact h

/-- A length that fits and the slice of this length. -/
theorem sliceProperty_taken {n d : Nat} {k : LengthKind} {r : Except Failure Nat}
    (hr : ∀ o', r = .ok o' → o' ≤ n) (hc : (Event.declared k d o).Checked n) (h : o + d ≤ n) :
    (sliceProperty n).holds [.declared k d o, .slice o d] o r := by
  refine sliceProperty_of_checked hr (by simpa [Event.Checked] using hc) ⟨?_, ?_, ?_⟩
  · simpa [Event.InBounds] using h
  · simpa [Event.Unfit] using h
  · rintro ⟨e, he, hu⟩
    simp only [List.mem_cons, List.not_mem_nil, or_false] at he
    rcases he with rfl | rfl
    · exact absurd hu (not_lt.mpr h)
    · exact hu.elim

theorem sliceProperty_bytes {view : Bool} {d : Nat}
    {r : List Event × Except Failure (List UInt8 × Nat)} (hb : Addressable buf)
    (ho : o ≤ buf.length) (hd : d < 2 ^ 32) (h : TakesBytes view buf d o r) :
    (sliceProperty buf.length).holds r.1 o (r.2.map Prod.snd) := by
  have hhuge : ¬ (Event.slice o (2 ^ 64 - 2 ^ 32 + d)).InBounds buf.length := by
    have hb' : buf.length < 2 ^ 63 := hb
    show ¬ o + (2 ^ 64 - 2 ^ 32 + d) ≤ buf.length
    omega
  cases h with
  | rejected _ hback => exact sliceProperty_declared le_of_error hback (.inr rfl)
  | empty h0 =>
    have hback : ¬ MovesBack d o := fun h => absurd h.1 (by omega)
    exact sliceProperty_declared (le_of_ok ho) hback (.inl (by omega))
  | taken hlt hfit =>
    have hback : ¬ MovesBack d o := fun h => absurd h.1 (by omega)
    exact sliceProperty_taken (le_of_ok hfit) hback hfit
  | thrown hback _ =>
    exact sliceProperty_of_unchecked le_of_error (List.mem_cons_self ..) (not_not.mpr hback)
      (List.mem_cons_of_mem _ (List.mem_singleton_self _)) hhuge
  | viewed hback _ =>
    exact sliceProperty_of_unchecked (le_of_ok (by omega)) (List.mem_cons_self ..)
      (not_not.mpr hback) (List.mem_cons_of_mem _ (List.mem_singleton_self _)) hhuge

theorem sliceProperty_objectId {d : Nat} {r : List Event × Except Failure (ObjectId × Nat)}
    (h : TakesObjectId buf d o r) :
    (sliceProperty buf.length).holds r.1 o (r.2.map Prod.snd) := by
  cases h with
  | rejected h =>
    have hc : (Event.declared .objectId d o).Checked buf.length := h.imp_right .inl
    exact sliceProperty_declared le_of_error hc (.inr rfl)
  | refused h0 hle _ =>
    by_cases hfit : o + d ≤ buf.length
    · have hc : (Event.declared .objectId d o).Checked buf.length := .inr (.inr hfit)
      exact sliceProperty_taken le_of_error hc hfit
    · have hc : ¬ (Event.declared .objectId d o).Checked buf.length := by
        rintro (h | h | h)
        · exact h0 h
        · exact absurd h (not_lt.mpr hle)
        · exact hfit h
      exact sliceProperty_of_unchecked le_of_error (List.mem_cons_self ..) hc
        (List.mem_cons_of_mem _ (List.mem_singleton_self _)) hfit
  | overEnd hd hover =>
    have hc : ¬ (Event.declared .objectId d o).Checked buf.length := by
      have hd' : d = 25 := hd
      have e : toInt d = 25 := by rw [hd']; rfl
      rintro (h | h | h)
      · omega
      · rw [e] at h
        exact absurd h (by decide)
      · omega
    exact sliceProperty_of_unchecked le_of_error (List.mem_cons_self ..) hc
      (List.mem_cons_of_mem _ (List.mem_singleton_self _)) (not_le.mpr hover)
  | parsed _ hfit =>
    have hc : (Event.declared .objectId d o).Checked buf.length := .inr (.inr hfit)
    exact sliceProperty_taken (le_of_ok hfit) hc hfit

theorem sliceProperty_skips {start : Nat} {r : List Event × Except Failure (Unit × Nat)}
    (h : Skips start buf o r) : (sliceProperty buf.length).holds r.1 o (r.2.map Prod.snd) := by
  have hskip : ∀ {k d : Nat} {q : Except Failure Nat}, o + k ≤ buf.length →
      (∀ o', q = .ok o' → o' ≤ buf.length) →
      (sliceProperty buf.length).holds [.slice o k, .skip start d (o + k)] o q := by
    intro k d q hk hq
    refine sliceProperty_of_checked hq (by simp [Event.Checked]) ⟨?_, ?_, ?_⟩
    · simpa [Event.InBounds] using hk
    · simp [Event.Unfit]
    · simp [Event.Unfit]
  cases h with
  | nothing he => exact sliceProperty_numbers (α := Unit) (.nothing he)
  | failed he hk => exact sliceProperty_numbers (α := Unit) (.failed he hk)
  | number h0 hk => exact sliceProperty_numbers (α := Unit) (.read h0 hk)
  | fixed _ hk =>
    exact sliceProperty_of_checked (le_of_ok hk) (by simp) (by simp [SlicesFit])
  | rejected hk _ => exact hskip hk le_of_error
  | forward _ _ hk => exact hskip (by omega) (le_of_ok hk)
  | back hk hd _ => exact hskip hk (le_of_ok (by omega))

theorem sliceProperty_outside {n : Nat} {t : List Event} {r : Except Failure Nat} (h : n < o) :
    (sliceProperty n).holds t o r := fun ho => absurd ho (not_le.mpr h)

theorem sliceProperty_failure (n o : Nat) (e : Failure) :
    (sliceProperty n).holds [] o (.error e) :=
  sliceProperty_of_checked le_of_error (by simp) (by simp [SlicesFit])

/-- An event that is no slice and no length. -/
theorem sliceProperty_iteration (n : Nat) {start stop : Nat} :
    (sliceProperty n).holds [.iteration start stop] o (.ok o) := by
  intro ho
  exact sliceProperty_of_checked (le_of_ok ho) (by simp [Event.Checked])
    ⟨by simp [Event.InBounds], by simp, by simp [Event.Unfit]⟩ ho

theorem sliceProperty_fieldStep {α : Type} {find : Nat → Option (UnitFieldParser α)}
    (hb : Addressable buf)
    (hp : ∀ id p, find id = some p → ∀ x, (sliceProperty buf.length).Sat (p.fn x)) (x : α) :
    (sliceProperty buf.length).Sat (fieldStep find buf x) := by
  intro o
  by_cases ho : o ≤ buf.length
  · apply RunProperty.satAt_offset_bind
    have htag := RunProperty.satAt_of_run (sliceProperty buf.length) (p := readUint32 buf) rfl
      (sliceProperty_numbers (readUint32_run hb ho))
    refine RunProperty.satAt_bind _ htag fun tag o' hr => ?_
    have ho' : o' ≤ buf.length := (htag ho).1 o' (by rw [hr]; rfl)
    by_cases h0 : tag = 0
    · rw [if_pos h0]
      exact sliceProperty_failure _ _ _
    rw [if_neg h0]
    cases hf : find (tag >>> 3) with
    | some p =>
      by_cases hw : p.wireType.num ≠ tag &&& 7
      · simp only [if_pos hw]
        exact sliceProperty_failure _ _ _
      · simp only [if_neg hw]
        exact hp _ p hf x o'
    | none =>
      have hskip := RunProperty.satAt_of_run (sliceProperty buf.length)
        (p := skipField o (tag &&& 7) buf) rfl (sliceProperty_skips (skipField_run _ _ hb ho'))
      exact RunProperty.satAt_bind _ hskip fun _ o'' _ => RunProperty.satAt_pure _ x o''
  · exact sliceProperty_outside (not_le.mp ho)

theorem sliceProperty_fieldRound {α : Type} {find : Nat → Option (UnitFieldParser α)}
    (hb : Addressable buf)
    (hp : ∀ id p, find id = some p → ∀ x, (sliceProperty buf.length).Sat (p.fn x)) (x : α) :
    (sliceProperty buf.length).Sat (fieldRound find buf x) := by
  intro o
  apply RunProperty.satAt_offset_bind
  refine RunProperty.satAt_bind _ (sliceProperty_fieldStep hb hp x o) fun y o' _ => ?_
  apply RunProperty.satAt_offset_bind
  exact RunProperty.satAt_log_bind _ (sliceProperty_iteration _) (RunProperty.satAt_pure _ y o')

theorem sliceRules (env : Env) (hb : Addressable buf) (fuel : Nat) :
    ReaderRules (sliceProperty buf.length) env buf fuel where
  outside h := sliceProperty_outside h
  rejects o := sliceProperty_failure _ o _
  numbers _ h := sliceProperty_numbers h
  bytes _ ho hd h := sliceProperty_bytes hb ho hd h
  objectId _ _ h := sliceProperty_objectId h
  refuses hk _ := by
    rcases hk with rfl | rfl
    · exact sliceProperty_declared le_of_error trivial (.inr rfl)
    · exact sliceProperty_declared le_of_error trivial (.inr rfl)
  enters hk h := by
    rcases hk with rfl | rfl
    · exact sliceProperty_declared (le_of_ok (by omega)) trivial (.inl h)
    · exact sliceProperty_declared (le_of_ok (by omega)) trivial (.inl h)
  scalars he stop l _ := by
    refine sat_untilOffset _ (fun o => sliceProperty_failure _ o _) (fun l o => ?_) fuel l
    by_cases ho : o ≤ buf.length
    · exact RunProperty.satAt_bind _
        (RunProperty.satAt_of_run _ rfl (sliceProperty_numbers (he o ho)))
        fun _ o' _ => RunProperty.satAt_pure _ _ o'
    · exact sliceProperty_outside (not_le.mp ho)
  fields hp stop x _ :=
    sat_untilOffset _ (fun o => sliceProperty_failure _ o _)
      (fun x => sliceProperty_fieldRound hb hp x) fuel x

/-- **Every parser of a field stays in the buffer** and ends at a length that does not fit,
before anything behind it is read, if and only if all lengths are checked ones. -/
theorem field_slices_fit_iff (env : Env) (c : Container) (fuel : Nat) (f : Field)
    (x : FieldValue) (o : Nat) (ho : o ≤ c.bytes.length) :
    SlicesFit c.bytes.length (((f.parser env c.bytes fuel).fn x).trace o)
        ((((f.parser env c.bytes fuel).fn x).outcome o).map Prod.snd) ↔
      ∀ e ∈ ((f.parser env c.bytes fuel).fn x).trace o, e.Checked c.bytes.length := by
  obtain ⟨_, h2, h3⟩ := (sliceRules env c.addressable fuel).sat_field c.addressable f x o ho
  refine ⟨fun h e he => ?_, h2⟩
  by_contra hc
  obtain ⟨e', he', hi⟩ := h3 ⟨e, he, hc⟩
  exact hi (h.1 e' he')

/-- A string of one byte, behind its tag. -/
theorem field_slices_fit_string :
    SlicesFit 3
      ((((Field.mk 1 false (.single (.bytes 0))).parser ⟨false, fun _ => true⟩ [0x0A, 0x01, 0x61]
        4).fn .unset).trace 1)
      (((((Field.mk 1 false (.single (.bytes 0))).parser ⟨false, fun _ => true⟩ [0x0A, 0x01, 0x61]
        4).fn .unset).outcome 1).map Prod.snd) := by
  refine (field_slices_fit_iff ⟨false, fun _ => true⟩ ⟨[0x0A, 0x01, 0x61], by simp [Addressable]⟩ 4
    (.mk 1 false (.single (.bytes 0))) .unset 1 (by decide)).mpr fun e he => ?_
  have ht : (((Field.mk 1 false (.single (.bytes 0))).parser ⟨false, fun _ => true⟩
      [0x0A, 0x01, 0x61] 4).fn .unset).trace 1 =
      [.slice 1 1, .declared (.bytes false) 1 2, .slice 2 1] := by decide +kernel
  rw [ht] at he
  simp only [List.mem_cons, List.not_mem_nil, or_false] at he
  rcases he with rfl | rfl | rfl
  · trivial
  · exact fun h => absurd h.1 (by decide)
  · trivial

/-- An object id that is cut off: 25 bytes are read where one is left. -/
theorem objectId_over_end :
    ¬ SlicesFit 3
      ((((Field.mk 1 false (.single .objectId)).parser ⟨false, fun _ => true⟩ [0x0A, 0x19, 0x61]
        4).fn .unset).trace 1)
      (((((Field.mk 1 false (.single .objectId)).parser ⟨false, fun _ => true⟩ [0x0A, 0x19, 0x61]
        4).fn .unset).outcome 1).map Prod.snd) := by
  have ht : (((Field.mk 1 false (.single .objectId)).parser ⟨false, fun _ => true⟩
      [0x0A, 0x19, 0x61] 4).fn .unset).trace 1 =
      [.slice 1 1, .declared .objectId 25 2, .slice 2 25] := by decide +kernel
  rw [ht]
  intro h
  have hi : 2 + 25 ≤ 3 := h.1 (.slice 2 25) (by simp)
  exact absurd hi (by decide)

end Hatn.Dataunit
