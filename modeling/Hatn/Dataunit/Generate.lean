import Hatn.Dataunit.ObjectId
import Mathlib.Logic.Function.Basic

/-!
# Generating object ids

Threads generate object ids with two atomics, the last millisecond and the sequence
counter.  A step is one atomic operation of one thread, and the steps of the threads
follow each other in any order.  A restart of the counter between two ids of one
millisecond lets a number come twice; `nodup_ids` says that this is all that can happen,
as long as the counter does not run through all of its numbers.
-/

namespace Hatn.Dataunit.Generate

/-- How far a call of `generate` has come, with what it has read. -/
inductive Phase
  | idle
  /-- `m_timepoint` is set. -/
  | timed (timepoint : Fin (2 ^ 64))
  /-- `lastMs` is loaded. -/
  | loadedMs (timepoint prevMs : Fin (2 ^ 64))
  /-- `seq` is loaded. -/
  | loaded (timepoint prevMs : Fin (2 ^ 64)) (prevSeq : Fin (2 ^ 32))
  /-- `lastMs` is exchanged, `seq` is to be. -/
  | exchanged (timepoint : Fin (2 ^ 64)) (prevSeq : Fin (2 ^ 32))
  /-- An exchange has failed. -/
  | failed (timepoint : Fin (2 ^ 64))
  deriving DecidableEq

/-- The atomics, the clock, the threads, and the ids returned since the last restart of
the counter and before it, each with the last one first. -/
structure State (ι : Type) where
  lastMs : Fin (2 ^ 64)
  seq : Fin (2 ^ 32)
  clock : Fin (2 ^ 64)
  phase : ι → Phase
  recent : List ObjectId
  old : List ObjectId

variable {ι : Type} [DecidableEq ι]

namespace State

def start : State ι := ⟨0, 1, 0, fun _ => .idle, [], []⟩

/-- The ids that calls have returned. -/
def ids (s : State ι) : List ObjectId := s.recent ++ s.old

def goto (s : State ι) (i : ι) (p : Phase) : State ι := { s with phase := Function.update s.phase i p }

/-- `m_seq=seq.fetch_add(1)+1`, and the call returns. -/
def fetchAdd (s : State ι) (i : ι) (timepoint : Fin (2 ^ 64)) (rand : Fin (2 ^ 32)) : State ι :=
  { s.goto i .idle with
    seq := s.seq + 1
    recent := ⟨timepoint, s.seq + 1, rand⟩ :: s.recent }

/-- The counter is 1 again, and so is `m_seq`. -/
def restart (s : State ι) (i : ι) (timepoint : Fin (2 ^ 64)) (rand : Fin (2 ^ 32)) : State ι :=
  { s.goto i .idle with
    seq := 1
    recent := [⟨timepoint, 1, rand⟩]
    old := s.recent ++ s.old }

/-- The next operation of a thread: `now` is what the clock reads, which never goes back,
and `rand` is the random part. -/
def next (s : State ι) (i : ι) (now : Fin (2 ^ 64)) (rand : Fin (2 ^ 32)) : Option (State ι) :=
  match s.phase i with
  | .idle => if s.clock ≤ now then some { s.goto i (.timed now) with clock := now } else none
  | .timed timepoint => some (s.goto i (.loadedMs timepoint s.lastMs))
  | .loadedMs timepoint prevMs => some (s.goto i (.loaded timepoint prevMs s.seq))
  | .loaded timepoint prevMs prevSeq =>
    if prevMs < timepoint then
      if s.lastMs = prevMs then
        some { s.goto i (.exchanged timepoint prevSeq) with lastMs := timepoint }
      else some (s.goto i (.failed timepoint))
    else some (s.fetchAdd i timepoint rand)
  | .exchanged timepoint prevSeq =>
    if s.seq = prevSeq then some (s.restart i timepoint rand)
    else some (s.goto i (.failed timepoint))
  | .failed timepoint => some (s.fetchAdd i timepoint rand)

/-- The next operation takes the next number of the counter for this time point. -/
def Takes (s : State ι) (i : ι) (timepoint : Fin (2 ^ 64)) : Prop :=
  s.phase i = .failed timepoint ∨
    ∃ prevMs prevSeq, s.phase i = .loaded timepoint prevMs prevSeq ∧ ¬ prevMs < timepoint

/-- What an operation does to the atomics and to the ids. -/
theorem next_cases {s s' : State ι} {i : ι} {now : Fin (2 ^ 64)} {rand : Fin (2 ^ 32)}
    (h : s.next i now rand = some s') :
    (s'.seq = s.seq ∧ s'.recent = s.recent ∧ s'.old = s.old) ∨
    (∃ timepoint, s.Takes i timepoint ∧ s' = s.fetchAdd i timepoint rand) ∨
    (∃ timepoint, s.phase i = .exchanged timepoint s.seq ∧ s' = s.restart i timepoint rand) := by
  cases hp : s.phase i with
  | idle =>
    simp only [next, hp] at h
    split at h
    · cases h
      exact .inl ⟨rfl, rfl, rfl⟩
    · cases h
  | timed t =>
    simp only [next, hp] at h
    cases h
    exact .inl ⟨rfl, rfl, rfl⟩
  | loadedMs t m =>
    simp only [next, hp] at h
    cases h
    exact .inl ⟨rfl, rfl, rfl⟩
  | loaded t m q =>
    simp only [next, hp] at h
    split at h
    · split at h
      · cases h
        exact .inl ⟨rfl, rfl, rfl⟩
      · cases h
        exact .inl ⟨rfl, rfl, rfl⟩
    · rename_i hlt
      cases h
      exact .inr (.inl ⟨t, .inr ⟨m, q, hp, hlt⟩, rfl⟩)
  | exchanged t q =>
    simp only [next, hp] at h
    split at h
    · rename_i heq
      cases h
      exact .inr (.inr ⟨t, by rw [heq], rfl⟩)
    · cases h
      exact .inl ⟨rfl, rfl, rfl⟩
  | failed t =>
    simp only [next, hp] at h
    cases h
    exact .inr (.inl ⟨t, .inl hp, rfl⟩)

/-! ### Runs -/

/-- Operations of threads one after the other. -/
def run (s : State ι) : List (ι × Fin (2 ^ 64) × Fin (2 ^ 32)) → Option (State ι)
  | [] => some s
  | (i, now, rand) :: l => do
    let s' ← s.next i now rand
    s'.run l

/-- `P` holds before each of the operations. -/
def Along (P : State ι → ι → Prop) (s : State ι) : List (ι × Fin (2 ^ 64) × Fin (2 ^ 32)) → Prop
  | [] => True
  | (i, now, rand) :: l => P s i ∧
    match s.next i now rand with
    | some s' => s'.Along P l
    | none => True

instance decidableAlong (P : State ι → ι → Prop) [∀ s i, Decidable (P s i)] : ∀ (s : State ι)
    (l : List (ι × Fin (2 ^ 64) × Fin (2 ^ 32))), Decidable (s.Along P l)
  | _, [] => .isTrue trivial
  | s, (i, now, rand) :: l =>
    have : Decidable (match s.next i now rand with
        | some s' => s'.Along P l
        | none => True) :=
      match s.next i now rand with
      | some s' => decidableAlong P s' l
      | none => .isTrue trivial
    inferInstanceAs (Decidable (_ ∧ _))

/-- The states that operations lead to, when `P` holds before each of them. -/
inductive Reached (P : State ι → ι → Prop) : State ι → Prop
  | start : Reached P .start
  | next {s s' : State ι} {i : ι} {now : Fin (2 ^ 64)} {rand : Fin (2 ^ 32)} :
    Reached P s → P s i → s.next i now rand = some s' → Reached P s'

theorem reached_run {P : State ι → ι → Prop} : ∀ {l : List (ι × Fin (2 ^ 64) × Fin (2 ^ 32))}
    {s s' : State ι}, Reached P s → s.Along P l → s.run l = some s' → Reached P s' := by
  intro l
  induction l with
  | nil =>
    intro s s' hs _ h
    cases h
    exact hs
  | cons op l ih =>
    intro s s' hs ha h
    obtain ⟨i, now, rand⟩ := op
    obtain ⟨s₁, h₁, h₂⟩ := Option.bind_eq_some_iff.mp h
    obtain ⟨hp, ha⟩ := ha
    rw [h₁] at ha
    exact ih (.next hs hp h₁) ha h₂

/-- No id of the time point is from before the last restart of the counter, and none from a
whole turn of the counter ago. -/
def Fresh (s : State ι) (t : Fin (2 ^ 64)) : Prop :=
  (∀ x ∈ s.old, x.timepoint ≠ t) ∧ ∀ p ∈ s.recent.zipIdx, p.1.timepoint = t → p.2 + 1 < 2 ^ 32

instance (s : State ι) (t : Fin (2 ^ 64)) : Decidable (s.Fresh t) :=
  inferInstanceAs (Decidable (_ ∧ _))

def ApartAt (s : State ι) : Phase → Prop
  | .loaded timepoint prevMs _ => prevMs < timepoint ∨ s.Fresh timepoint
  | .failed timepoint => s.Fresh timepoint
  | .exchanged timepoint prevSeq => s.seq = prevSeq → ∀ x ∈ s.ids, x.timepoint ≠ timepoint
  | _ => True

instance (s : State ι) : ∀ p, Decidable (s.ApartAt p)
  | .idle | .timed _ | .loadedMs _ _ => inferInstanceAs (Decidable True)
  | .loaded _ _ _ => inferInstanceAs (Decidable (_ ∨ _))
  | .failed _ => inferInstanceAs (Decidable (Fresh _ _))
  | .exchanged _ _ => inferInstanceAs (Decidable (_ → _))

/-- A number is taken for a time point whose ids are all of this turn of the counter, and the
counter is restarted for a time point without ids. -/
def Apart (s : State ι) (i : ι) : Prop := s.ApartAt (s.phase i)

instance (s : State ι) (i : ι) : Decidable (s.Apart i) := inferInstanceAs (Decidable (ApartAt _ _))

/-- The pair that tells ids apart. -/
def pair (x : ObjectId) : Fin (2 ^ 64) × Fin (2 ^ 32) := (x.timepoint, x.seq)

/-- The recent numbers lead up to the counter, and no pair came twice. -/
structure Counted (s : State ι) : Prop where
  recent : ∀ k x, s.recent[k]? = some x → (x.seq.val + k) % 2 ^ 32 = s.seq.val
  nodup : (s.ids.map pair).Nodup

theorem Counted.fetchAdd {s : State ι} (hs : s.Counted) {i : ι} {t : Fin (2 ^ 64)}
    {rand : Fin (2 ^ 32)} (ht : s.Fresh t) : (s.fetchAdd i t rand).Counted := by
  have hseq : (s.seq + 1).val = (s.seq.val + 1) % 2 ^ 32 := Fin.val_add s.seq 1
  refine ⟨fun k x hk => ?_, ?_⟩
  · cases k with
    | zero =>
      cases hk
      show ((s.seq + 1).val + 0) % 2 ^ 32 = (s.seq + 1).val
      omega
    | succ k =>
      have := hs.recent k x hk
      show (x.seq.val + (k + 1)) % 2 ^ 32 = (s.seq + 1).val
      omega
  · refine List.nodup_cons.mpr ⟨fun hm => ?_, hs.nodup⟩
    obtain ⟨x, hx, he⟩ := List.mem_map.mp hm
    obtain ⟨htp, hsq⟩ := Prod.mk.inj he
    rcases List.mem_append.mp hx with hx | hx
    · obtain ⟨k, hk⟩ := List.mem_iff_getElem?.mp hx
      have hlt := ht.2 (x, k) (List.mem_zipIdx_iff_getElem?.mpr hk) htp
      have hsum := hs.recent k x hk
      -- the number is the next one and, `k` numbers later, the counter
      have hval : x.seq.val = (s.seq.val + 1) % 2 ^ 32 := by rw [hsq, hseq]
      omega
    · exact ht.1 x hx htp

theorem Counted.restart {s : State ι} (hs : s.Counted) {i : ι} {t : Fin (2 ^ 64)}
    {rand : Fin (2 ^ 32)} (h : ∀ x ∈ s.ids, x.timepoint ≠ t) : (s.restart i t rand).Counted := by
  refine ⟨fun k x hk => ?_, ?_⟩
  · cases k with
    | zero =>
      cases hk
      rfl
    | succ k => cases hk
  · refine List.nodup_cons.mpr ⟨fun hm => ?_, hs.nodup⟩
    obtain ⟨x, hx, he⟩ := List.mem_map.mp hm
    exact h x hx (Prod.mk.inj he).1

/-- **A step** of a thread keeps the ids apart. -/
theorem Counted.next {s s' : State ι} (hs : s.Counted) {i : ι} {now : Fin (2 ^ 64)}
    {rand : Fin (2 ^ 32)} (ha : s.Apart i) (h : s.next i now rand = some s') : s'.Counted := by
  rcases next_cases h with ⟨hseq, hrecent, hold⟩ | ⟨t, ht, rfl⟩ | ⟨t, ht, rfl⟩
  · refine ⟨?_, ?_⟩
    · rw [hrecent, hseq]
      exact hs.recent
    · rw [ids, hrecent, hold]
      exact hs.nodup
  · rcases ht with hp | ⟨m, q, hp, hlt⟩
    · rw [Apart, hp] at ha
      exact hs.fetchAdd ha
    · rw [Apart, hp] at ha
      exact hs.fetchAdd (ha.resolve_left hlt)
  · rw [Apart, ht] at ha
    exact hs.restart (ha rfl)

/-- **No two calls return the same pair**, in every run in which the counter is not
restarted between two ids of one time point. -/
theorem nodup_ids {s : State ι} (h : Reached Apart s) : (s.ids.map pair).Nodup := by
  suffices hs : s.Counted from hs.nodup
  induction h with
  | start => exact ⟨nofun, List.nodup_nil⟩
  | next _ ha hn ih => exact ih.next ha hn

/-- Two threads in one millisecond: the second one comes when `lastMs` is exchanged. -/
def together : List (Nat × Fin (2 ^ 64) × Fin (2 ^ 32)) :=
  List.replicate 4 (0, 6, 1) ++ List.replicate 4 (1, 6, 1) ++ List.replicate 2 (0, 6, 1)

theorem nodup_together : ∃ s : State Nat, run start together = some s ∧
    s.ids.map pair = [(6, 3), (6, 2)] ∧ (s.ids.map pair).Nodup := by
  have hids : (run start together).map (fun s => s.ids.map pair) = some [(6, 3), (6, 2)] := by
    decide +kernel
  obtain ⟨s, hs, hpairs⟩ := Option.map_eq_some_iff.mp hids
  exact ⟨s, hs, hpairs, nodup_ids (reached_run .start (by decide +kernel) hs)⟩

/-- A thread that reads an earlier millisecond and is then delayed: the thread 2 reads 6,
ids of 6 are generated, the counter is restarted for 7, and the thread 2 goes on. -/
def delayed : List (Nat × Fin (2 ^ 64) × Fin (2 ^ 32)) :=
  (2, 6, 1) :: List.replicate 5 (0, 6, 1) ++ List.replicate 4 (1, 6, 1) ++
    List.replicate 5 (0, 7, 1) ++ List.replicate 3 (2, 7, 1)

theorem delayed_ids : (run start delayed).map (fun s => s.ids.map pair) =
    some [(6, 2), (7, 1), (6, 2), (6, 1)] := by
  decide +kernel

/-- The pair (6, 2) is returned twice. -/
theorem not_nodup_delayed : ¬ ∀ s : State Nat, Reached (fun _ _ => True) s →
    (s.ids.map pair).Nodup := by
  intro h
  obtain ⟨s, hs, hids⟩ := Option.map_eq_some_iff.mp delayed_ids
  have hn := h s (reached_run .start (by decide +kernel) hs)
  rw [hids] at hn
  exact absurd hn (by decide)

end State

end Hatn.Dataunit.Generate
