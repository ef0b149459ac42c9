import Mathlib.Data.List.Basic

/-!
# Searches that are told whether to go on

A search reports what it finds, one thing at a time, and is told each time whether to go
on.  It is not bound to end when it is told to stop: what it does then is a part of it.
`all` is what it reports when it is always told to go on, `run` is the search under a
callback with a state of its own.

* `all_bind`: searches one behind the other;
* `run_of_next`: a callback that always goes on sees all;
* `run_seen`: an invariant about what has been seen so far holds behind all reports, unless
  the callback comes to a state that it does not leave any more.
-/

namespace Hatn.Search

/-- A search for things of `ε` with a result of `α`. -/
inductive Visits (ε α : Type)
  | done (a : α)
  | visit (e : ε) (next : Bool → Visits ε α)

/-- What a callback says: go on, stop, or give up with an error. -/
inductive Answer (err : Type)
  | next
  | stop
  | fail (e : err)

namespace Visits

variable {ε α β σ err : Type}

def bind : Visits ε α → (α → Visits ε β) → Visits ε β
  | done a, f => f a
  | visit e next, f => visit e fun go => (next go).bind f

instance : Monad (Visits ε) where
  pure := done
  bind := bind

/-- One thing is reported; the result is whether to go on. -/
def call (e : ε) : Visits ε Bool := visit e done

/-- What is reported when the search is always told to go on. -/
def all : Visits ε α → List ε
  | done _ => []
  | visit e next => e :: (next true).all

/-- The result when the search is always told to go on. -/
def value : Visits ε α → α
  | done a => a
  | visit _ next => (next true).value

/-- The search under a callback.  An error ends it. -/
def run (cb : σ → ε → σ × Answer err) : Visits ε α → σ → σ × Except err α
  | done a, s => (s, .ok a)
  | visit e next, s =>
    match cb s e with
    | (s', .next) => (next true).run cb s'
    | (s', .stop) => (next false).run cb s'
    | (s', .fail error) => (s', .error error)

/-- What is reported behind the stop, when the search is told to stop once, at the `n`-th
report counted from zero. -/
def afterStop : Nat → Visits ε α → List ε
  | _, done _ => []
  | 0, visit _ next => (next false).all
  | n + 1, visit _ next => (next true).afterStop n

/-- The search with its reports under other names. -/
def map {ε' : Type} (g : ε → ε') : Visits ε α → Visits ε' α
  | done a => done a
  | visit e next => visit (g e) fun go => (next go).map g

/-- Searches one behind the other, without their results. -/
def sequence : List (Visits ε α) → Visits ε Unit
  | [] => done ()
  | t :: ts => t.bind fun _ => sequence ts

@[simp] theorem pure_eq (a : α) : (pure a : Visits ε α) = done a := rfl

@[simp] theorem bind_eq (t : Visits ε α) (f : α → Visits ε β) : t >>= f = t.bind f := rfl

@[simp] theorem all_call (e : ε) : (call e).all = [e] := rfl

@[simp] theorem value_call (e : ε) : (call e).value = true := rfl

/-- **One behind the other**, both report all. -/
@[simp] theorem all_bind (t : Visits ε α) (f : α → Visits ε β) :
    (t.bind f).all = t.all ++ (f t.value).all := by
  induction t with
  | done a => rfl
  | visit e next ih =>
    rw [bind, all, all, value, ih true]
    rfl

@[simp] theorem value_bind (t : Visits ε α) (f : α → Visits ε β) :
    (t.bind f).value = (f t.value).value := by
  induction t with
  | done a => rfl
  | visit e next ih => exact ih true

@[simp] theorem all_map {ε' : Type} (g : ε → ε') (t : Visits ε α) :
    (t.map g).all = t.all.map g := by
  induction t with
  | done a => rfl
  | visit e next ih =>
    rw [map, all, all, List.map_cons, ih true]

@[simp] theorem all_sequence (ts : List (Visits ε α)) :
    (sequence ts).all = ts.flatMap all := by
  induction ts with
  | nil => rfl
  | cons t ts ih => rw [sequence, all_bind, ih, List.flatMap_cons]

/-- There is nothing behind a stop that does not come. -/
theorem afterStop_of_length_le (t : Visits ε α) :
    ∀ n, t.all.length ≤ n → t.afterStop n = [] := by
  induction t with
  | done a => exact fun n _ => by cases n <;> rfl
  | visit e next ih =>
    intro n hn
    rw [all, List.length_cons] at hn
    cases n with
    | zero => exact absurd hn (Nat.not_succ_le_zero _)
    | succ n => exact ih true n (by omega)

/-- A search alone. -/
theorem afterStop_sequence_singleton (t : Visits ε α) : ∀ n,
    (sequence [t]).afterStop n = t.afterStop n := by
  have hall : ∀ t : Visits ε α, (sequence [t]).all = t.all := fun t => by
    rw [all_sequence, List.flatMap_singleton]
  induction t with
  | done a => exact fun n => by cases n <;> rfl
  | visit e next ih =>
    intro n
    cases n with
    | zero => exact hall (next false)
    | succ n => exact ih true n

/-- The states of a callback, whatever it answers. -/
def fold (cb : σ → ε → σ × Answer err) (s : σ) (l : List ε) : σ :=
  l.foldl (fun s e => (cb s e).1) s

@[simp] theorem fold_nil (cb : σ → ε → σ × Answer err) (s : σ) : fold cb s [] = s := rfl

@[simp] theorem fold_cons (cb : σ → ε → σ × Answer err) (s : σ) (e : ε) (l : List ε) :
    fold cb s (e :: l) = fold cb (cb s e).1 l := rfl

@[simp] theorem fold_append (cb : σ → ε → σ × Answer err) (s : σ) (l l' : List ε) :
    fold cb s (l ++ l') = fold cb (fold cb s l) l' :=
  List.foldl_append

/-- **A callback that always goes on** sees all. -/
theorem run_of_next {cb : σ → ε → σ × Answer err} (h : ∀ s e, (cb s e).2 = .next)
    (t : Visits ε α) (s : σ) : t.run cb s = (fold cb s t.all, .ok t.value) := by
  induction t generalizing s with
  | done a => rfl
  | visit e next ih =>
    have he := h s e
    rw [run, all, fold_cons, value]
    rcases hcb : cb s e with ⟨s', answer⟩
    rw [hcb] at he
    cases he
    exact ih true s'

/-- Whatever it is told, the search reports things of `P` only, and its result is of `R`. -/
def Reports (P : ε → Prop) (R : α → Prop) : Visits ε α → Prop
  | done a => R a
  | visit e next => P e ∧ ∀ go, (next go).Reports P R

section
variable {P P' : ε → Prop} {R : α → Prop} {t : Visits ε α}

theorem reports_true (t : Visits ε α) : t.Reports (fun _ => True) fun _ => True := by
  induction t with
  | done a => trivial
  | visit e next ih => exact ⟨trivial, ih⟩

theorem Reports.mono (h : t.Reports P R) {R' : α → Prop} (hP : ∀ e, P e → P' e)
    (hR : ∀ a, R a → R' a) : t.Reports P' R' := by
  induction t with
  | done a => exact hR a h
  | visit e next ih => exact ⟨hP e h.1, fun go => ih go (h.2 go)⟩

theorem Reports.bind (h : t.Reports P R) {R' : β → Prop} {f : α → Visits ε β}
    (hf : ∀ a, R a → (f a).Reports P R') : (t.bind f).Reports P R' := by
  induction t with
  | done a => exact hf a h
  | visit e next ih => exact ⟨h.1, fun go => ih go (h.2 go)⟩

theorem Reports.map {ε' : Type} {P' : ε' → Prop} {g : ε → ε'} (h : t.Reports P R)
    (hg : ∀ e, P e → P' (g e)) : (t.map g).Reports P' R := by
  induction t with
  | done a => exact h
  | visit e next ih => exact ⟨hg e h.1, fun go => ih go (h.2 go)⟩

theorem Reports.all (h : t.Reports P R) : ∀ e ∈ t.all, P e := by
  induction t with
  | done a => exact nofun
  | visit e next ih =>
    intro e' he'
    obtain rfl | he' := List.mem_cons.mp he'
    · exact h.1
    · exact ih true (h.2 true) e' he'

theorem Reports.afterStop (h : t.Reports P R) : ∀ n, ∀ e ∈ t.afterStop n, P e := by
  induction t with
  | done a => exact fun n => by cases n <;> exact nofun
  | visit e next ih =>
    intro n
    cases n with
    | zero => exact (h.2 false).all
    | succ n => exact ih true (h.2 true) n

end

/-- States that the callback does not leave are not left. -/
theorem run_keep {cb : σ → ε → σ × Answer err} {Q : σ → Prop} {P : ε → Prop} {R : α → Prop}
    {t : Visits ε α} (ht : t.Reports P R) (hkeep : ∀ s e, P e → Q s → Q (cb s e).1) (s : σ)
    (hs : Q s) : Q (t.run cb s).1 := by
  induction t generalizing s with
  | done a => exact hs
  | visit e next ih =>
    have hq := hkeep s e ht.1 hs
    rw [run]
    rcases hcb : cb s e with ⟨s', answer⟩
    rw [hcb] at hq
    cases answer with
    | next => exact ih true (ht.2 true) s' hq
    | stop => exact ih false (ht.2 false) s' hq
    | fail error => exact hq

/-- **What has been seen**: `I` holds of the reports so far and the state, until the callback
gives up, or comes to a state of `Q`, which it does not leave. -/
theorem run_seen {cb : σ → ε → σ × Answer err} {I : List ε → σ → Prop} {Q : σ → Prop}
    {P : ε → Prop} {R : α → Prop} {t : Visits ε α} (ht : t.Reports P R)
    (hkeep : ∀ s e, P e → Q s → Q (cb s e).1) (seen : List ε) (s : σ) (hs : I seen s)
    (hstep : ∀ l e l' s, seen ++ t.all = l ++ e :: l' → I l s →
      I (l ++ [e]) (cb s e).1 ∧ (cb s e).2 = .next ∨ Q (cb s e).1 ∨
        ∃ error, (cb s e).2 = .fail error) :
    (∃ error, (t.run cb s).2 = .error error) ∨ I (seen ++ t.all) (t.run cb s).1 ∨
      Q (t.run cb s).1 := by
  induction t generalizing seen s with
  | done a =>
    rw [run, Visits.all, List.append_nil]
    exact .inr (.inl hs)
  | visit e next ih =>
    have hfirst := hstep seen e (next true).all s rfl hs
    rw [run, Visits.all]
    rcases hcb : cb s e with ⟨s', answer⟩
    rw [hcb] at hfirst
    obtain ⟨hs', rfl⟩ | hq | ⟨error, rfl⟩ := hfirst
    · have hassoc : seen ++ e :: (next true).all = (seen ++ [e]) ++ (next true).all := by simp
      rw [hassoc]
      refine ih true (ht.2 true) (seen ++ [e]) s' hs' fun l e' l' s'' heq => ?_
      rw [← hassoc] at heq
      exact hstep l e' l' s'' heq
    · cases answer with
      | next => exact .inr (.inr (run_keep (ht.2 true) hkeep s' hq))
      | stop => exact .inr (.inr (run_keep (ht.2 false) hkeep s' hq))
      | fail error => exact .inl ⟨error, rfl⟩
    · exact .inl ⟨error, rfl⟩

end Visits

end Hatn.Search
