import Hatn.Db.QueryAnswers

/-!
# Time points left out of a query

A query can leave out the objects that were created in given intervals.  The search looks at
the time point of an entry only at the first field.  Before the last field, it takes there
the first entry of each value and goes on behind that value, where the time points are looked
at no more.  So `filters_iff`: nothing is lost, but an entry that is to be left out is called
back for as soon as another one with the same first value is not left out.
-/

namespace Hatn.Db

open Query Search

namespace IndexKeySearch

/-- The creation timestamp of the entry is in one of the intervals. -/
def Source.leftOut (src : Source) (e : Entry) : Bool :=
  filterTimePoint src.timePoints (timestampFromIndexValue e.value)

/-- The entry is not expired. -/
def Source.Alive (src : Source) (e : Entry) : Prop := TtlMark.isExpired e.value src.now = false

/-- An entry that is not expired and whose row matches. -/
def Matching (src : Source) (fs : List Field) (e : Entry) : Prop :=
  e ∈ src.entries ∧ src.Alive e ∧ ∃ row, Holds src.start fs row e ∧ Values.Matches fs row

/-- **The filter by time points**: the callback is called with no entry that is to be left out,
and with all matching entries that are not. -/
def Filters (src : Source) (fs : List Field) : Prop :=
  (∀ e ∈ called src fs, src.leftOut e = false) ∧
    ∀ e, Matching src fs e → src.leftOut e = false → e ∈ called src fs

/-- The entries are in the order of their keys; in those of the topic the queried fields are
set. -/
structure Keyed (src : Source) (fs : List Field) : Prop where
  sorted : src.entries.Pairwise fun e e' => e.key < e'.key
  rows : ∀ e ∈ src.entries, src.indexRangeFrom <+: e.key → ∃ row, Holds src.start fs row e

/-- Behind a matching entry that is to be left out, all entries with its first value are to be
left out, as far as they are not expired. -/
def Uniform (src : Source) (f : Field) (fs : List Field) : Prop :=
  ∀ e e' : Entry, ∀ row row' : Values (f :: fs), e ∈ src.entries → e' ∈ src.entries →
    Holds src.start (f :: fs) row e → Holds src.start (f :: fs) row' e' →
      Values.Matches (f :: fs) row → row.1 = row'.1 → src.Alive e → src.Alive e' →
        src.leftOut e = true → src.leftOut e' = true

/-- The conditions that the search answers as they are meant (`answers_of_regular`). -/
structure RegularQuery (fs : List Field) : Prop where
  ordered : ∀ g ∈ fs, g.column.Ordered
  ordinary : ∀ g ∈ fs, OrdinaryField g
  regular : ∀ g ∈ fs, RegularField g
  chained : fs.IsChain fun g g' => OnValues g ∨ OwnSides g'

theorem isFiltered_first_iff {src : Source} {e : Entry} :
    src.isFiltered 1 e = false ↔ src.Alive e ∧ src.leftOut e = false := by
  simp only [Source.isFiltered, Source.Alive, Source.leftOut, decide_true, Bool.true_and,
    Bool.or_eq_false_iff]

/-- Behind the first field only expired entries are passed over. -/
theorem isFiltered_next_iff {src : Source} {n : Nat} {e : Entry} :
    src.isFiltered (n + 2) e = false ↔ src.Alive e := by
  have hpos : decide (n + 2 = 1) = false := decide_eq_false (by omega)
  simp only [Source.isFiltered, Source.Alive, hpos, Bool.false_and, Bool.or_false]

/-- Behind the first field, the search gets to all entries that are not expired. -/
theorem reached_next_iff {src : Source} {e : Entry} (he : e ∈ src.entries) : ∀ {fs : List Field}
    {f : Field} {n : Nat} {P : Key}, Stored P (f :: fs) e →
      (Reached src (n + 1) P (f :: fs) e ↔ src.Alive e) := by
  intro fs
  induction fs with
  | nil => exact fun _ => isFiltered_next_iff
  | cons g fs ih =>
    rintro f n P ⟨w, -, hp, hstored⟩
    constructor
    · rintro ⟨w', hp', -, hreached⟩
      rw [hp'.unique hp] at hreached
      exact (ih hstored).mp hreached
    · intro halive
      exact ⟨w, hp, ⟨e, he, isFiltered_next_iff.mpr halive, hp⟩, (ih hstored).mpr halive⟩

/-- At the first field, it gets to an entry just when one with the same part is neither expired
nor left out. -/
theorem reached_first_iff {src : Source} {f g : Field} {fs : List Field} {w : Key} {e : Entry}
    (he : e ∈ src.entries) (hstored : Stored src.start (f :: g :: fs) e)
    (hp : Part src.start w e) : Reached src 0 src.start (f :: g :: fs) e ↔
      src.Alive e ∧ ∃ e' ∈ src.entries, src.Alive e' ∧ src.leftOut e' = false ∧
        Part src.start w e' := by
  obtain ⟨w', -, hp', hstored⟩ := hstored
  rw [hp'.unique hp] at hstored
  constructor
  · rintro ⟨w', hp', ⟨e', he', hfilter, hpart⟩, hreached⟩
    rw [hp'.unique hp] at hpart hreached
    obtain ⟨halive, hleft⟩ := isFiltered_first_iff.mp hfilter
    exact ⟨(reached_next_iff he hstored).mp hreached, e', he', halive, hleft, hpart⟩
  · rintro ⟨halive, e', he', halive', hleft, hpart⟩
    exact ⟨w, hp, ⟨e', he', isFiltered_first_iff.mpr ⟨halive', hleft⟩, hpart⟩,
      (reached_next_iff he hstored).mpr halive⟩

section
variable {src : Source} {f : Field} {fs : List Field}

theorem Keyed.placed (h : Keyed src fs) (hc : ∀ f ∈ fs, f.column.Ordered) :
    Placed src src.start fs where
  sorted := h.sorted
  stored e he hp := by
    obtain ⟨row, hrow⟩ := h.rows e he hp
    exact hrow.stored hc

/-- **The calls** of a regular query: with the entries of matching rows that the search gets
to. -/
theorem mem_called_iff (hkeyed : Keyed src (f :: fs)) (hq : RegularQuery (f :: fs))
    {e : Entry} :
    e ∈ called src (f :: fs) ↔ e ∈ src.entries ∧
      (∃ row, Holds src.start (f :: fs) row e ∧ Values.Matches (f :: fs) row) ∧
        Reached src 0 src.start (f :: fs) e := by
  have hc := hq.ordered
  have hs : ∀ g ∈ f :: fs, Splits g := fun g hg =>
    splits_of_regular (hc g hg) (hq.ordinary g hg) (hq.regular g hg)
  have hfollows : Chained (f :: fs) := by
    refine hq.chained.imp_of_mem_imp fun g g' hg hg' hgg' => ?_
    exact hgg'.imp (hs g hg).onValues (hs g' hg').ownSides
  have hreached := nextKeyField_reached fs f 0 src.start src.indexRangeFrom src.indexRangeTo
    (level_start src) (hkeyed.placed hc) (fun g hg => (hs g hg).apart) hfollows (.inr ⟨rfl, rfl⟩)
  rw [called_eq]
  refine (hreached.2 e).trans (and_congr_right fun he => and_congr_left fun _ => ?_)
  constructor
  · intro hhit
    have hstarts : src.indexRangeFrom <+: e.key := by
      obtain ⟨w, -, hp, -⟩ := hhit
      exact hp.starts
    obtain ⟨row, hrow⟩ := hkeyed.rows e he hstarts
    exact ⟨row, hrow, (hrow.hit_iff hc hs).mp hhit⟩
  · rintro ⟨row, hrow, hmatches⟩
    exact (hrow.hit_iff hc hs).mpr hmatches

/-- A query with one field leaves out what is to be left out. -/
theorem filters_single (hkeyed : Keyed src [f]) (hq : RegularQuery [f]) : Filters src [f] := by
  have hmem := @mem_called_iff src f [] hkeyed hq
  constructor
  · intro e he
    obtain ⟨-, -, hreached⟩ := hmem.mp he
    exact (isFiltered_first_iff.mp hreached).2
  · rintro e ⟨he, halive, hrow⟩ hleft
    exact hmem.mpr ⟨he, hrow, isFiltered_first_iff.mpr ⟨halive, hleft⟩⟩

/-- With more fields, the entries with one first value are left out together. -/
theorem filters_iff_uniform {g : Field} (hkeyed : Keyed src (f :: g :: fs))
    (hq : RegularQuery (f :: g :: fs)) :
    Filters src (f :: g :: fs) ↔ Uniform src f (g :: fs) := by
  have hc := hq.ordered
  have hmem := @mem_called_iff src f (g :: fs) hkeyed hq
  have hf := hc f List.mem_cons_self
  constructor
  · rintro ⟨hnone, -⟩ e e' row row' he he' hrow hrow' hmatches hsame halive halive' hleft
    by_contra hleft'
    have hreached := (reached_first_iff he (hrow.stored hc) (hrow.part hf)).mpr ⟨halive, e', he',
      halive', Bool.eq_false_iff.mpr hleft', by rw [hsame]; exact hrow'.part hf⟩
    have hcalled := hmem.mpr ⟨he, ⟨row, hrow, hmatches⟩, hreached⟩
    exact absurd (hnone e hcalled) (by rw [hleft]; decide)
  · intro huniform
    constructor
    · intro e hcalled
      obtain ⟨he, ⟨row, hrow, hmatches⟩, hreached⟩ := hmem.mp hcalled
      obtain ⟨halive, e', he', halive', hleft', hp'⟩ :=
        (reached_first_iff he (hrow.stored hc) (hrow.part hf)).mp hreached
      obtain ⟨row', hrow'⟩ := hkeyed.rows e' he' hp'.starts
      have hsame : row.1 = row'.1 := (form_inj hf).mp (hp'.unique (hrow'.part hf))
      by_contra hleft
      have htogether := huniform e e' row row' he he' hrow hrow' hmatches hsame halive halive'
        (Bool.of_not_eq_false hleft)
      exact absurd hleft' (by rw [htogether]; decide)
    · rintro e ⟨he, halive, row, hrow, hmatches⟩ hleft
      exact hmem.mpr ⟨he, ⟨row, hrow, hmatches⟩, (reached_first_iff he (hrow.stored hc)
        (hrow.part hf)).mpr ⟨halive, e, he, halive, hleft, hrow.part hf⟩⟩

end

section Sample

/-- The entry of an object that was created at the time point `t`. -/
def createdEntry (m n t : Fin 256) : Entry :=
  { sampleEntry m n with value := [97, UInt8.ofNat t, 0, 0, 0, 0] }

/-- Two objects with the values 6 and 1, and 6 and 2, created at 1 and at 2; what was created
at 2 is left out. -/
def createdSource : Source where
  entries := [createdEntry 6 1 1, createdEntry 6 2 2]
  topic := [116]
  indexId := sampleId
  now := 0
  timePoints := [⟨⟨2, .closed⟩, ⟨2, .closed⟩⟩]

end Sample

end IndexKeySearch

end Hatn.Db
