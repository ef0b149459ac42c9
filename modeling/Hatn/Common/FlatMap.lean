import Hatn.Common.FlatContainer

/-!
# Flat maps and sets against `std::map` and `std::set`

The abstract dictionary gives each key the element that a `std::map` with the same history
holds for it.  A map keeps the element that was there before: a bulk insertion keeps the
first of equivalent elements, and an assignment keeps the stored key.

* `Holds`: the vector and the dictionary have the same elements.
* `insert_holds`, `assign_holds`, `erase_holds`, `append_holds`: one lemma an operation.
* `containers_kept_iff`: the vector answers as the dictionary in every state of a run if and
  only if the run is regular.
-/

namespace Hatn.Common.FlatContainer

open Hatn.Order

/-! ### Dictionaries -/

/-- The element for each key. -/
abbrev Dictionary (κ ι : Type) := κ → Option ι

namespace Dictionary

variable {κ ι ν : Type} (o : StrictWeak κ) (key : ι → κ)

def empty : Dictionary κ ι := fun _ => none

/-- The element goes in where no equivalent one is. -/
def insert (m : Dictionary κ ι) (x : ι) : Dictionary κ ι :=
  fun k => if o.Equiv (key x) k then some ((m (key x)).getD x) else m k

/-- `insert_or_assign` of a `std::map`: the stored key stays. -/
def assign (m : Dictionary κ (κ × ν)) (x : κ × ν) : Dictionary κ (κ × ν) :=
  fun k => if o.Equiv x.1 k then some (((m x.1).getD x).1, x.2) else m k

def erase (m : Dictionary κ ι) (k₀ : κ) : Dictionary κ ι :=
  fun k => if o.Equiv k₀ k then none else m k

/-- The elements go in one by one. -/
def insertAll (m : Dictionary κ ι) (range : List ι) : Dictionary κ ι :=
  range.foldl (insert o key) m

end Dictionary

/-! ### The vector and the dictionary -/

variable {κ ι ν : Type} (o : StrictWeak κ) (key : ι → κ)

/-- The dictionary has the elements of the list, each for the keys equivalent to its own. -/
def Holds (items : List ι) (m : Dictionary κ ι) : Prop :=
  ∀ k x, m k = some x ↔ x ∈ items ∧ o.Equiv (key x) k

/-- No two elements have equivalent keys. -/
def Distinct (items : List ι) : Prop := items.Pairwise fun x y => ¬ o.Equiv (key x) (key y)

instance (items : List ι) : Decidable (Distinct o key items) :=
  inferInstanceAs (Decidable (List.Pairwise _ _))

/-- The container answers as the dictionary; `bound` is the comparison that the bounds use. -/
structure Kept (bound : StrictWeak κ) (items : List ι) (m : Dictionary κ ι) : Prop where
  ordered : o.Ordered key items
  found (k : κ) : find o key items k = m k
  lower (k : κ) : o.IsLowerBound key items k (lowerBound bound key items k)
  upper (k : κ) : o.IsUpperBound key items k (upperBound bound key items k)

variable {o key} {items : List ι} {m : Dictionary κ ι}

theorem holds_of_found (h : o.Ordered key items) (hf : ∀ k, find o key items k = m k) :
    Holds o key items m := by
  intro k x
  rw [← hf k]
  exact find_eq_some_iff h

theorem found_of_holds (h : o.Ordered key items) (hm : Holds o key items m) (k : κ) :
    find o key items k = m k := by
  ext x
  rw [find_eq_some_iff h, hm k x]

/-- **Ordered vectors with the elements of the dictionary** answer as it does. -/
theorem kept_iff_ordered : Kept o key o items m ↔ o.Ordered key items ∧ Holds o key items m :=
  ⟨fun h => ⟨h.ordered, holds_of_found h.ordered h.found⟩, fun h =>
    ⟨h.1, found_of_holds h.1 h.2, fun _ => lowerBound_spec h.1, fun _ => upperBound_spec h.1⟩⟩

theorem Holds.eq_none_iff (hm : Holds o key items m) {k : κ} :
    m k = none ↔ ∀ x ∈ items, ¬ o.Equiv (key x) k := by
  rw [Option.eq_none_iff_forall_ne_some]
  constructor
  · intro h x hx he
    exact h x ((hm k x).mpr ⟨hx, he⟩)
  · intro h x hx
    exact h x ((hm k x).mp hx).1 ((hm k x).mp hx).2

theorem Holds.perm {items' : List ι} (hm : Holds o key items m) (hp : items'.Perm items) :
    Holds o key items' m := by
  intro k x
  rw [hm k x, hp.mem_iff]

theorem distinct_perm {items' : List ι} (hp : items'.Perm items) :
    Distinct o key items' ↔ Distinct o key items :=
  hp.pairwise_iff fun h he => h he.symm

/-- Nothing equivalent is there: the element is added. -/
theorem Holds.insert_new {f b : List ι} {x : ι} (hm : Holds o key (f ++ b) m)
    (hn : ∀ y ∈ f ++ b, ¬ o.Equiv (key y) (key x)) :
    Holds o key (f ++ x :: b) (m.insert o key x) := by
  intro k y
  have hnone : m (key x) = none := hm.eq_none_iff.mpr hn
  have hmem : y ∈ f ++ x :: b ↔ y = x ∨ y ∈ f ++ b := by
    simp only [List.mem_append, List.mem_cons]
    tauto
  rw [Dictionary.insert, hnone, Option.getD_none, hmem]
  by_cases hk : o.Equiv (key x) k
  · rw [if_pos hk, Option.some.injEq]
    constructor
    · rintro rfl
      exact ⟨.inl rfl, hk⟩
    · rintro ⟨rfl | hy, he⟩
      · rfl
      · exact absurd (he.trans hk.symm) (hn y hy)
  · rw [if_neg hk, hm k y]
    constructor
    · exact fun h => ⟨.inr h.1, h.2⟩
    · rintro ⟨rfl | hy, he⟩
      · exact absurd he hk
      · exact ⟨hy, he⟩

/-- An equivalent element is there: the dictionary stays. -/
theorem Holds.insert_old {x y : ι} (hm : Holds o key items m) (hx : x ∈ items)
    (he : o.Equiv (key x) (key y)) : m.insert o key y = m := by
  funext k
  rw [Dictionary.insert, (hm (key y) x).mpr ⟨hx, he⟩, Option.getD_some]
  by_cases hk : o.Equiv (key y) k
  · rw [if_pos hk]
    exact ((hm k x).mpr ⟨hx, he.trans hk⟩).symm
  · rw [if_neg hk]

/-! ### One lemma an operation -/

/-- `insert` keeps the equivalent element, or adds the new one. -/
theorem insert_holds (h : o.Ordered key items) (hm : Holds o key items m) (x : ι) :
    o.Ordered key (insert o key items x false).items ∧
      Holds o key (insert o key items x false).items (m.insert o key x) := by
  rcases insert_cases h x false with ⟨f, y, b, rfl, he, hi⟩ | ⟨f, b, rfl, hf, hb, hi⟩
  · rw [hi, hm.insert_old (by simp) he]
    exact ⟨h, hm⟩
  · rw [hi]
    exact ⟨h.insert hf hb, hm.insert_new (not_equiv_of_apart hf hb)⟩

theorem erase_holds (h : o.Ordered key items) (hm : Holds o key items m) (k : κ) :
    o.Ordered key (erase o key items k) ∧ Holds o key (erase o key items k) (m.erase o k) := by
  rcases erase_cases h k with ⟨f, x, b, rfl, he, hi⟩ | ⟨hn, hi⟩
  · rw [hi]
    have hs : (f ++ b).Sublist (f ++ x :: b) := (List.sublist_cons_self x b).append_left f
    refine ⟨h.sublist hs, fun k' y => ?_⟩
    rw [Dictionary.erase]
    by_cases hk : o.Equiv k k'
    · rw [if_pos hk]
      refine iff_of_false (Option.some_ne_none y).symm fun ⟨hy, hyk⟩ => ?_
      have hyx := h.unique (hs.subset hy) (by simp : x ∈ f ++ x :: b)
        ((hyk.trans hk.symm).trans he.symm)
      rw [hyx] at hy
      have hp := List.pairwise_append.mp h
      rcases List.mem_append.mp hy with hy | hy
      · exact absurd (hp.2.2 x hy x List.mem_cons_self) (by rw [o.irrefl]; exact Bool.false_ne_true)
      · exact absurd ((List.pairwise_cons.mp hp.2.1).1 x hy)
          (by rw [o.irrefl]; exact Bool.false_ne_true)
    · rw [if_neg hk, hm k' y]
      constructor
      · rintro ⟨hy, hyk⟩
        refine ⟨?_, hyk⟩
        rcases List.mem_append.mp hy with hy | hy
        · exact List.mem_append_left b hy
        rcases List.mem_cons.mp hy with rfl | hy
        · exact absurd (he.symm.trans hyk) hk
        · exact List.mem_append_right f hy
      · exact fun hy => ⟨hs.subset hy.1, hy.2⟩
  · rw [hi]
    refine ⟨h, fun k' y => ?_⟩
    rw [Dictionary.erase]
    by_cases hk : o.Equiv k k'
    · rw [if_pos hk]
      exact iff_of_false (Option.some_ne_none y).symm fun ⟨hy, hyk⟩ => hn y hy (hyk.trans hk.symm)
    · rw [if_neg hk, hm k' y]

/-- Nothing equivalent to an erased key is left. -/
theorem erase_not_equiv (h : o.Ordered key items) (k : κ) :
    ∀ x ∈ erase o key items k, ¬ o.Equiv (key x) k := by
  have hm : Holds o key items (find o key items) := fun _ _ => find_eq_some_iff h
  refine (erase_holds h hm k).2.eq_none_iff.mp ?_
  exact if_pos (StrictWeak.Equiv.refl k)

/-- What is added one by one, with no two equivalent elements, is added at once. -/
theorem append_holds (range : List ι) : ∀ {items : List ι} {m : Dictionary κ ι},
    Holds o key items m → Distinct o key (items ++ range) →
      Holds o key (items ++ range) (m.insertAll o key range) := by
  induction range with
  | nil =>
    intro items m hm _
    rw [List.append_nil]
    exact hm
  | cons x range ih =>
    intro items m hm hd
    have happ : items ++ x :: range = (items ++ [x]) ++ range := by simp
    rw [happ] at hd ⊢
    refine ih ?_ hd
    have hx : ∀ y ∈ items ++ [], ¬ o.Equiv (key y) (key x) := by
      intro y hy
      rw [List.append_nil] at hy
      exact (List.pairwise_append.mp (List.pairwise_append.mp hd).1).2.2 y hy x List.mem_cons_self
    exact Holds.insert_new (by rwa [List.append_nil]) hx

/-- **The bulk operations** keep the order exactly when no two elements are equivalent. -/
theorem sort_holds_iff (sorting : Sorting o key) (hm : Holds o key items m) (range : List ι) :
    (o.Ordered key (sorting.sort (items ++ range)) ∧
      Holds o key (sorting.sort (items ++ range)) (m.insertAll o key range)) ↔
    Distinct o key (items ++ range) := by
  have hp := sorting.perm (items ++ range)
  constructor
  · exact fun h => (distinct_perm hp).mp h.1.distinct
  · intro hd
    refine ⟨StrictWeak.ordered_of_sorted (sorting.sorted _) ((distinct_perm hp).mpr hd), ?_⟩
    exact (append_holds range hm hd).perm hp

/-! ### Assignments of a map -/

section Assign

variable {entries : List (κ × ν)} {d : Dictionary κ (κ × ν)}

/-- An assigned entry stands for its key in the dictionary with the key that was stored. -/
theorem replace_holds {f b : List (κ × ν)} {x : κ × ν} (h : o.Ordered Prod.fst (f ++ x :: b))
    (hm : Holds o Prod.fst (f ++ x :: b) d) {k : κ} (he : o.Equiv x.1 k) (val : ν) :
    o.Ordered Prod.fst (f ++ (x.1, val) :: b) ∧
      Holds o Prod.fst (f ++ (x.1, val) :: b) (d.assign o (k, val)) := by
  have hd : d k = some x := (hm k x).mpr ⟨by simp, he⟩
  have hord : o.Ordered Prod.fst (f ++ (x.1, val) :: b) :=
    h.replace (StrictWeak.Equiv.refl x.1)
  refine ⟨hord, fun k' y => ?_⟩
  rw [Dictionary.assign, hd, Option.getD_some]
  by_cases hk : o.Equiv k k'
  · rw [if_pos hk, Option.some.injEq]
    constructor
    · rintro rfl
      exact ⟨by simp, he.trans hk⟩
    · rintro ⟨hy, hyk⟩
      exact hord.unique (by simp) hy ((he.trans hk).trans hyk.symm)
  · rw [if_neg hk, hm k' y]
    simp only [List.mem_append, List.mem_cons]
    constructor
    · rintro ⟨hy | rfl | hy, hyk⟩
      · exact ⟨.inl hy, hyk⟩
      · exact absurd (he.symm.trans hyk) hk
      · exact ⟨.inr (.inr hy), hyk⟩
    · rintro ⟨hy | rfl | hy, hyk⟩
      · exact ⟨.inl hy, hyk⟩
      · exact absurd (he.symm.trans hyk) hk
      · exact ⟨.inr (.inr hy), hyk⟩

/-- A key that is not stored is assigned by an insertion. -/
theorem assign_eq_insert {x : κ × ν} (h : d x.1 = none) :
    d.assign o x = d.insert o Prod.fst x := by
  funext k
  rw [Dictionary.assign, Dictionary.insert, h]
  rfl

/-- `insert_or_assign` puts the key in the place of the stored one: it keeps to the
dictionary when they are the same. -/
theorem insertOrAssign_holds_iff (h : o.Ordered Prod.fst entries)
    (hm : Holds o Prod.fst entries d) (x : κ × ν) :
    (o.Ordered Prod.fst (insert o Prod.fst entries x true).items ∧
      Holds o Prod.fst (insert o Prod.fst entries x true).items (d.assign o x)) ↔
    ∀ y ∈ entries, o.Equiv y.1 x.1 → y.1 = x.1 := by
  rcases insert_cases h x true with ⟨f, y, b, rfl, he, hi⟩ | ⟨f, b, rfl, hf, hb, hi⟩
  · rw [hi]
    have hd : d x.1 = some y := (hm x.1 y).mpr ⟨by simp, he⟩
    constructor
    · rintro ⟨hord, hholds⟩ z hz hzx
      rw [h.unique hz (by simp : y ∈ f ++ y :: b) (hzx.trans he.symm)]
      have hx : d.assign o x x.1 = some x :=
        (hholds x.1 x).mpr ⟨by simp, StrictWeak.Equiv.refl x.1⟩
      rw [Dictionary.assign, if_pos (StrictWeak.Equiv.refl x.1), hd, Option.getD_some,
        Option.some.injEq] at hx
      have hfst : (y.1, x.2).1 = x.1 := congrArg Prod.fst hx
      exact hfst
    · intro hk
      have hx : (y.1, x.2) = x := Prod.ext (hk y (by simp) he) rfl
      have hr := replace_holds h hm he x.2
      rw [hx] at hr
      exact hr
  · rw [hi]
    have hn := not_equiv_of_apart hf hb
    rw [assign_eq_insert (hm.eq_none_iff.mpr hn)]
    exact iff_of_true ⟨h.insert hf hb, hm.insert_new hn⟩ fun y hy he => absurd he (hn y hy)

theorem assignAt_length {f b : List (κ × ν)} {x : κ × ν} {val : ν} :
    assignAt (f ++ x :: b) f.length val = f ++ (x.1, val) :: b := by
  rw [assignAt, List.modify_eq_take_cons_drop (by simp)]
  simp

/-- A value assigned through `operator[]` leaves the stored key. -/
theorem subscript_assign_holds [Inhabited ν] (h : o.Ordered Prod.fst entries)
    (hm : Holds o Prod.fst entries d) (k : κ) (val : ν) :
    o.Ordered Prod.fst (assignAt (subscript o entries k).1 (subscript o entries k).2 val) ∧
      Holds o Prod.fst (assignAt (subscript o entries k).1 (subscript o entries k).2 val)
        (d.assign o (k, val)) := by
  rw [subscript_eq_insert h]
  rcases insert_cases h (k, default) false with ⟨f, y, b, rfl, he, hi⟩ | ⟨f, b, rfl, hf, hb, hi⟩
  · rw [hi]
    simp only [Bool.false_eq_true, if_false, assignAt_length]
    exact replace_holds h hm he val
  · rw [hi]
    have hn : ∀ y ∈ f ++ b, ¬ o.Equiv y.1 k := not_equiv_of_apart hf hb
    have hd : d (k, val).1 = none := hm.eq_none_iff.mpr hn
    simp only [assignAt_length]
    rw [assign_eq_insert hd]
    exact ⟨h.insert hf hb, hm.insert_new hn⟩

end Assign

/-! ### Runs -/

/-- The operations that sets and maps share. -/
inductive SetOp (κ ι : Type) where
  | insert (x : ι)
  | erase (k : κ)
  | loadRange (range : List ι)

/-- The operations of a map.  `operator[]` may be assigned through. -/
inductive MapOp (κ ν : Type) where
  | shared (op : SetOp κ (κ × ν))
  | insert_or_assign (x : κ × ν)
  | emplace (k : κ) (val : ν)
  | emplace_or_assign (k : κ) (val : ν)
  | subscript (k : κ) (assigned : Option ν)

section Runs

variable (sorting : Sorting o key)

/-- What an operation does to the vector. -/
def SetOp.run (items : List ι) : SetOp κ ι → List ι
  | .insert x => (FlatContainer.insert o key items x false).items
  | .erase k => FlatContainer.erase o key items k
  | .loadRange range => FlatContainer.loadRange sorting items range

variable (o key) in
/-- What it does to the dictionary. -/
def SetOp.spec (m : Dictionary κ ι) : SetOp κ ι → Dictionary κ ι
  | .insert x => m.insert o key x
  | .erase k => m.erase o k
  | .loadRange range => m.insertAll o key range

variable (o key) in
/-- What an operation promises of the vector besides: an erased key is gone. -/
def SetOp.Done (items : List ι) : SetOp κ ι → Prop
  | .erase k => ∀ x ∈ items, ¬ o.Equiv (key x) k
  | _ => True

variable (o key) in
/-- A range has no two equivalent keys, nor one that is there. -/
def SetOp.Regular (items : List ι) : SetOp κ ι → Prop
  | .loadRange range => Distinct o key (items ++ range)
  | _ => True

variable [Inhabited ν] (entries : List (κ × ν)) (msorting : Sorting o (Prod.fst : κ × ν → κ))

def MapOp.run : MapOp κ ν → List (κ × ν)
  | .shared op => op.run msorting entries
  | .insert_or_assign x => (FlatContainer.insert o Prod.fst entries x true).items
  | .emplace k val => (doEmplace o entries k val false).items
  | .emplace_or_assign k val => (doEmplace o entries k val true).items
  | .subscript k none => (FlatContainer.subscript o entries k).1
  | .subscript k (some val) =>
    let it := FlatContainer.subscript o entries k
    assignAt it.1 it.2 val

variable (o) in
def MapOp.spec (d : Dictionary κ (κ × ν)) : MapOp κ ν → Dictionary κ (κ × ν)
  | .shared op => op.spec o Prod.fst d
  | .insert_or_assign x => d.assign o x
  | .emplace k val => d.insert o Prod.fst (k, val)
  | .emplace_or_assign k val => d.assign o (k, val)
  | .subscript k none => d.insert o Prod.fst (k, default)
  | .subscript k (some val) => d.assign o (k, val)

variable (o) in
def MapOp.Done : MapOp κ ν → Prop
  | .shared op => op.Done o Prod.fst entries
  | _ => True

variable (o) in
/-- What is assigned has the key that is stored. -/
def MapOp.Regular : MapOp κ ν → Prop
  | .shared op => op.Regular o Prod.fst entries
  | .insert_or_assign x => ∀ y ∈ entries, o.Equiv y.1 x.1 → y.1 = x.1
  | .emplace_or_assign k _ => ∀ y ∈ entries, o.Equiv y.1 k → y.1 = k
  | _ => True

variable {entries}

/-- **The step of both containers.** -/
theorem SetOp.kept_iff_regular (h : Kept o key o items m) (op : SetOp κ ι) :
    (Kept o key o (op.run sorting items) (op.spec o key m) ∧
      op.Done o key (op.run sorting items)) ↔ op.Regular o key items := by
  obtain ⟨hord, hm⟩ := kept_iff_ordered.mp h
  cases op with
  | insert x => exact iff_of_true ⟨kept_iff_ordered.mpr (insert_holds hord hm x), trivial⟩ trivial
  | erase k =>
    exact iff_of_true ⟨kept_iff_ordered.mpr (erase_holds hord hm k), erase_not_equiv hord k⟩ trivial
  | loadRange range =>
    have hs := sort_holds_iff sorting hm range
    rw [SetOp.Regular, ← hs, ← kept_iff_ordered]
    exact and_iff_left trivial

/-- **The step of a map.** -/
theorem MapOp.kept_iff_regular {d : Dictionary κ (κ × ν)} (h : Kept o Prod.fst o entries d)
    (op : MapOp κ ν) :
    (Kept o Prod.fst o (op.run entries msorting) (op.spec o d) ∧
      op.Done o (op.run entries msorting)) ↔ op.Regular o entries := by
  obtain ⟨hord, hm⟩ := kept_iff_ordered.mp h
  cases op with
  | shared op => exact op.kept_iff_regular msorting h
  | insert_or_assign x =>
    rw [MapOp.Regular, ← insertOrAssign_holds_iff hord hm x, ← kept_iff_ordered]
    exact and_iff_left trivial
  | emplace k val =>
    have hi := insert_holds hord hm (k, val)
    rw [← doEmplace_eq_insert] at hi
    exact iff_of_true ⟨kept_iff_ordered.mpr hi, trivial⟩ trivial
  | emplace_or_assign k val =>
    have hi := insertOrAssign_holds_iff hord hm (k, val)
    rw [← doEmplace_eq_insert, ← kept_iff_ordered] at hi
    rw [MapOp.Regular, ← hi]
    exact and_iff_left trivial
  | subscript k assigned =>
    cases assigned with
    | none =>
      have hi := insert_holds hord hm (k, default)
      have hs : (FlatContainer.subscript o entries k).1 =
          (FlatContainer.insert o Prod.fst entries (k, default) false).items := by
        rw [subscript_eq_insert hord k]
      rw [← hs] at hi
      exact iff_of_true ⟨kept_iff_ordered.mpr hi, trivial⟩ trivial
    | some val =>
      exact iff_of_true ⟨kept_iff_ordered.mpr (subscript_assign_holds hord hm k val), trivial⟩ trivial

end Runs

/-! ### Runs of any container -/

section AnyRun

variable {σ δ Op : Type} (run : σ → Op → σ) (spec : δ → Op → δ) (K : σ → δ → Prop)
  (done : σ → Op → Prop) (regular : σ → Op → Prop)

/-- In every state the container answers as the dictionary, and every operation leaves what
it promises. -/
def KeptRun : σ → δ → List Op → Prop
  | s, d, [] => K s d
  | s, d, op :: ops =>
    K s d ∧ done (run s op) op ∧ KeptRun (run s op) (spec d op) ops

/-- Every operation is regular where it is called. -/
def RegularRun : σ → List Op → Prop
  | _, [] => True
  | s, op :: ops => regular s op ∧ RegularRun (run s op) ops

variable {run spec K done regular}

theorem KeptRun.start {s : σ} {d : δ} {ops : List Op} (h : KeptRun run spec K done s d ops) :
    K s d := by
  cases ops with
  | nil => exact h
  | cons op ops => exact h.1

theorem keptRun_iff_regularRun
    (hstep : ∀ s d op, K s d → (K (run s op) (spec d op) ∧ done (run s op) op ↔ regular s op))
    (ops : List Op) : ∀ {s : σ} {d : δ}, K s d →
      (KeptRun run spec K done s d ops ↔ RegularRun run regular s ops) := by
  induction ops with
  | nil => exact fun h => iff_of_true h trivial
  | cons op ops ih =>
    intro s d h
    have hs := hstep s d op h
    constructor
    · rintro ⟨-, hd, hr⟩
      exact ⟨hs.mp ⟨hr.start, hd⟩, (ih hr.start).mp hr⟩
    · rintro ⟨hr, hrest⟩
      obtain ⟨hk, hd⟩ := hs.mpr hr
      exact ⟨h, hd, (ih hk).mpr hrest⟩

end AnyRun

/-! ### Runs from a construction -/

section Containers

variable [Inhabited ν]

/-- A run of a map from its construction, against a `std::map` with the same history. -/
def MapKept (msorting : Sorting o (Prod.fst : κ × ν → κ)) (start : List (κ × ν))
    (ops : List (MapOp κ ν)) : Prop :=
  KeptRun (MapOp.run · msorting) (MapOp.spec o) (Kept o Prod.fst o) (MapOp.Done o)
    (construct msorting start) (Dictionary.empty.insertAll o Prod.fst start) ops

/-- The list has no two equivalent keys, and all operations are regular. -/
def MapRegular (msorting : Sorting o (Prod.fst : κ × ν → κ)) (start : List (κ × ν))
    (ops : List (MapOp κ ν)) : Prop :=
  Distinct o Prod.fst start ∧
    RegularRun (MapOp.run · msorting) (MapOp.Regular o) (construct msorting start) ops

/-- A run of a set from its construction, against a `std::set` with the same history. -/
def SetKept (bound : StrictWeak κ) (ssorting : Sorting o (id : κ → κ)) (start : List κ)
    (ops : List (SetOp κ κ)) : Prop :=
  KeptRun (SetOp.run ssorting) (SetOp.spec o id) (Kept o id bound) (SetOp.Done o id)
    (construct ssorting start) (Dictionary.empty.insertAll o id start) ops

def SetRegular (ssorting : Sorting o (id : κ → κ)) (start : List κ)
    (ops : List (SetOp κ κ)) : Prop :=
  Distinct o id start ∧
    RegularRun (SetOp.run ssorting) (SetOp.Regular o id) (construct ssorting start) ops

theorem holds_empty : Holds o key [] Dictionary.empty := by
  intro k x
  simp [Dictionary.empty]

theorem construct_kept_iff (sorting : Sorting o key) (start : List ι) :
    Kept o key o (construct sorting start) (Dictionary.empty.insertAll o key start) ↔
      Distinct o key start := by
  rw [kept_iff_ordered]
  exact sort_holds_iff sorting holds_empty start

theorem mapKept_iff (msorting : Sorting o (Prod.fst : κ × ν → κ)) (start : List (κ × ν))
    (ops : List (MapOp κ ν)) : MapKept msorting start ops ↔ MapRegular msorting start ops := by
  have hc := construct_kept_iff msorting start
  have hrun := @keptRun_iff_regularRun _ _ _ (MapOp.run · msorting) (MapOp.spec o)
    (Kept o Prod.fst o) (MapOp.Done o) (MapOp.Regular o)
    (fun _ _ op h => op.kept_iff_regular msorting h) ops
  constructor
  · exact fun h => ⟨hc.mp h.start, (hrun h.start).mp h⟩
  · exact fun h => (hrun (hc.mpr h.1)).mpr h.2

theorem setKept_iff (ssorting : Sorting o (id : κ → κ)) (start : List κ)
    (ops : List (SetOp κ κ)) : SetKept o ssorting start ops ↔ SetRegular ssorting start ops := by
  have hc := construct_kept_iff ssorting start
  have hrun := @keptRun_iff_regularRun _ _ _ (SetOp.run ssorting) (SetOp.spec o id)
    (Kept o id o) (SetOp.Done o id) (SetOp.Regular o id)
    (fun _ _ op h => op.kept_iff_regular ssorting h) ops
  constructor
  · exact fun h => ⟨hc.mp h.start, (hrun h.start).mp h⟩
  · exact fun h => (hrun (hc.mpr h.1)).mpr h.2

/-- On a single element the lower bound is what the comparison of the bounds says of it. -/
theorem lowerBound_singleton (bound : StrictWeak κ) (x : ι) (k : κ) :
    lowerBound bound key [x] k = if bound.less (key x) k then 1 else 0 := by
  unfold lowerBound lowerBoundLoop
  cases hx : bound.less (key x) k with
  | true => simp [hx, lowerBoundLoop]
  | false => cases hk : bound.less k (key x) <;> simp [hx, hk, lowerBoundLoop]

theorem bound_eq_of_singletons (bound : StrictWeak κ)
    (h : ∀ x k : κ, o.IsLowerBound id [x] k (lowerBound bound id [x] k)) : bound = o := by
  have hless : bound.less = o.less := by
    funext x k
    have hx := h x k
    rw [lowerBound_singleton] at hx
    cases hb : bound.less x k with
    | true =>
      simp only [id_eq, hb, if_true] at hx
      exact (hx.below x (by simp)).symm
    | false =>
      simp only [id_eq, hb, Bool.false_eq_true, if_false] at hx
      exact (hx.above x (by simp)).symm
  cases bound
  cases o
  cases hless
  rfl

/-- **Flat maps and sets refine ordered ones on regular runs, and on no others**; a set does
so when its bounds compare as the set does. -/
theorem containers_kept_iff (msorting : Sorting o (Prod.fst : κ × ν → κ))
    (ssorting : Sorting o (id : κ → κ)) (bound : StrictWeak κ) :
    (∀ start ops, MapKept msorting start ops ↔ MapRegular msorting start ops) ∧
    ((∀ start ops, SetKept bound ssorting start ops ↔ SetRegular ssorting start ops) ↔
      bound = o) := by
  refine ⟨mapKept_iff msorting, fun h => bound_eq_of_singletons bound fun x k => ?_, ?_⟩
  · have hreg : SetRegular ssorting [x] [] := ⟨List.pairwise_singleton _ _, trivial⟩
    have hlow := ((h [x] []).mpr hreg).lower k
    have hone : construct ssorting [x] = [x] := List.perm_singleton.mp (ssorting.perm [x])
    rwa [hone] at hlow
  · rintro rfl
    exact setKept_iff ssorting

/-- Numbers in the order of their halves: `2` and `3` are equivalent. -/
def sampleHalves : StrictWeak Nat where
  less a b := decide (a / 2 < b / 2)
  irrefl a := by simp
  trans h g := by
    simp only [decide_eq_true_eq] at h g ⊢
    exact Nat.lt_trans h g
  negTrans h g := by
    simp only [decide_eq_false_iff_not, Nat.not_lt] at h g ⊢
    exact Nat.le_trans g h

/-- A list with two entries for a key, and an assignment under an equivalent key, make a map
that a `std::map` differs from. -/
theorem equivalent_keys_stored :
    ¬ MapKept (mergeSorting sampleHalves Prod.fst) [(2, false), (2, true)] [] ∧
    ¬ MapKept (mergeSorting sampleHalves Prod.fst) [(2, false)]
      [.insert_or_assign (3, true)] := by
  constructor
  · rw [mapKept_iff]
    exact fun h => absurd h.1 (by decide)
  · rw [mapKept_iff]
    intro h
    have hone : construct (mergeSorting sampleHalves Prod.fst) [(2, false)] = [(2, false)] :=
      List.perm_singleton.mp (Sorting.perm _ _)
    have hr := h.2.1
    rw [hone] at hr
    exact absurd (hr (2, false) (by simp) (by decide)) (by decide)

end Containers

end Hatn.Common.FlatContainer
