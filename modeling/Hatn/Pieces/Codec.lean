import Mathlib.Data.List.Basic

/-!
# Codecs that work piece by piece

A codec is given by what it has put out when a part of its input was fed, and by what it puts out
at the end.  A run of it has been fed some input; it does not matter in which pieces, so that
the run holds this input only.  `feed_append` says that two pieces do what one of both does.
-/

namespace Hatn.Pieces

variable {α β : Type}

/-- What is put out for the part of the input that was fed, and at the end of the input; more
input can only add to it, and an error stays. -/
structure Codec (α β : Type) where
  out : List α → Option (List β)
  last : List α → Option (List β)
  out_nil : out [] = some []
  out_append : ∀ {xs ys r}, out (xs ++ ys) = some r → ∃ r', out xs = some r' ∧ r' <+: r

namespace Codec

/-- All that is put out for an input. -/
def total (c : Codec α β) (xs : List α) : Option (List β) :=
  (c.out xs).bind fun r => (c.last xs).map (r ++ ·)

/-- The codec that puts out its input at once. -/
def identity (α : Type) : Codec α α where
  out := some
  last _ := some []
  out_nil := rfl
  out_append := by
    rintro xs ys r ⟨⟩
    exact ⟨xs, rfl, List.prefix_append xs ys⟩

/-- A run that had no error yet. -/
@[ext]
structure Run (c : Codec α β) where
  fed : List α
  isSome : (c.out fed).isSome

variable {c : Codec α β}

namespace Run

def start (c : Codec α β) : Run c := ⟨[], by rw [c.out_nil]; rfl⟩

@[simp] theorem start_fed : (start c).fed = [] := rfl

/-- What the run has put out. -/
def given (s : Run c) : List β := (c.out s.fed).get s.isSome

theorem out_fed (s : Run c) : c.out s.fed = some s.given := (Option.some_get s.isSome).symm

@[simp] theorem start_given : (start c).given = [] := by
  rw [given]
  simp only [start_fed, c.out_nil, Option.get_some]

/-- The next piece of the input, and what is put out for it. -/
def feed (s : Run c) (xs : List α) : Option (Run c × List β) :=
  if h : (c.out (s.fed ++ xs)).isSome then
    some (⟨s.fed ++ xs, h⟩, ((c.out (s.fed ++ xs)).get h).drop s.given.length)
  else none

/-- The end of the input. -/
def finish (s : Run c) : Option (List β) := c.last s.fed

theorem feed_eq_some {s t : Run c} {xs : List α} {ys : List β} :
    s.feed xs = some (t, ys) ↔ t.fed = s.fed ++ xs ∧ t.given = s.given ++ ys := by
  constructor
  · intro h
    rw [feed, Option.dite_none_right_eq_some] at h
    obtain ⟨hsome, h⟩ := h
    cases h
    refine ⟨rfl, ?_⟩
    obtain ⟨r', hr', hprefix⟩ := c.out_append (Option.some_get hsome).symm
    have hgiven : r' = s.given := Option.some.inj (hr'.symm.trans s.out_fed)
    rw [hgiven] at hprefix
    exact (List.prefix_iff_eq_append.mp hprefix).symm
  · rintro ⟨hfed, hgiven⟩
    have hout : c.out (s.fed ++ xs) = some (s.given ++ ys) := by rw [← hfed, t.out_fed, hgiven]
    rw [feed, dif_pos (by rw [hout]; rfl)]
    simp only [hout, Option.get_some, List.drop_left, Option.some.injEq, Prod.mk.injEq, and_true]
    exact Run.ext hfed.symm

theorem feed_eq_none {s : Run c} {xs : List α} : s.feed xs = none ↔ c.out (s.fed ++ xs) = none := by
  rw [feed]
  split
  · next h =>
    simp only [reduceCtorEq, false_iff]
    exact Option.isSome_iff_ne_none.mp h
  · next h => simpa using h

@[simp] theorem feed_nil (s : Run c) : s.feed [] = some (s, []) :=
  feed_eq_some.mpr ⟨(List.append_nil _).symm, (List.append_nil _).symm⟩

/-- Two pieces do what one of both does. -/
theorem feed_append {s t : Run c} {xs : List α} {out : List β} (h : s.feed xs = some (t, out))
    (ys : List α) : s.feed (xs ++ ys) = (t.feed ys).map fun p => (p.1, out ++ p.2) := by
  obtain ⟨hfed, hgiven⟩ := feed_eq_some.mp h
  cases ht : t.feed ys with
  | none =>
    rw [feed_eq_none, hfed, List.append_assoc] at ht
    exact feed_eq_none.mpr ht
  | some p =>
    obtain ⟨u, more⟩ := p
    obtain ⟨hfed', hgiven'⟩ := feed_eq_some.mp ht
    refine feed_eq_some.mpr ⟨?_, ?_⟩
    · rw [hfed', hfed, List.append_assoc]
    · rw [hgiven', hgiven, List.append_assoc]

/-- What fails for a piece fails for more of it. -/
theorem feed_append_of_none {s : Run c} {xs : List α} (h : s.feed xs = none) (ys : List α) :
    s.feed (xs ++ ys) = none := by
  rw [feed_eq_none] at h ⊢
  cases hout : c.out (s.fed ++ (xs ++ ys)) with
  | none => rfl
  | some r =>
    rw [← List.append_assoc] at hout
    obtain ⟨r', hr', -⟩ := c.out_append hout
    rw [h] at hr'
    cases hr'

/-- All of the input is one piece. -/
theorem total_eq_feed (xs : List α) :
    c.total xs = ((start c).feed xs).bind fun p => p.1.finish.map (p.2 ++ ·) := by
  cases h : (start c).feed xs with
  | none =>
    rw [feed_eq_none, start_fed, List.nil_append] at h
    rw [total, h]
    rfl
  | some p =>
    obtain ⟨hfed, hgiven⟩ := feed_eq_some.mp h
    rw [start_fed, List.nil_append] at hfed
    rw [start_given, List.nil_append] at hgiven
    rw [total, ← hfed, p.1.out_fed, hgiven]
    rfl

end Run

end Codec

end Hatn.Pieces
