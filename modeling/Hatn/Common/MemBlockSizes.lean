import Hatn.Search.SearchTree
import Mathlib.Tactic.NormNum

/-!
# Sizes of memory blocks

`MemBlockSize::setMinMaxSizes` cuts the sizes up to a maximum into ranges.  The sizes grow by a
half, rounded to 32, and four sizes are put in between.  The loop ends when the next size reaches
the maximum, but a size that is put in is added without a look at the maximum, and the next size
may be past it already or past the end of `size_t`; then a range is added that ends before it
begins (`lawful_iff_fits`).
-/

namespace Hatn.Common

open Search

structure KeyRange where
  from_ : Nat
  to_ : Nat
  deriving DecidableEq

namespace KeyRange

/-- `operator <` -/
def less (left right : KeyRange) : Bool := left.to_ < right.from_

def Contains (key : KeyRange) (size : Nat) : Prop := key.from_ ≤ size ∧ size ≤ key.to_

end KeyRange

namespace MemBlockSizes

/-- `nextSize`: one and a half of the size, aligned to 32. -/
def nextSize (size : Nat) : Nat :=
  let s := (size + size >>> 1) % 2 ^ 64
  (32 + (s >>> 5) <<< 5) % 2 ^ 64

/-- The sizes and the variables of the loop. -/
structure Loop where
  sizes : SearchTree KeyRange
  from_ : Nat
  to_ : Nat

variable (B : SearchTree.Balancing KeyRange)

/-- `std::set::insert` -/
def insert (key : KeyRange) (sizes : SearchTree KeyRange) : SearchTree KeyRange :=
  B.balance (sizes.insertUnique KeyRange.less key none)

/-- One of the sizes that are put in between. -/
def addSize (special : Nat) (add : Bool) (s : Loop) : Loop :=
  if add && special < s.to_ then
    ⟨insert B ⟨s.from_, special⟩ s.sizes, special + 1, nextSize special⟩
  else s

/-- The body of the loop. -/
def step (s : Loop) : Loop :=
  let add1600 : Bool := s.from_ < 1600
  let add4160 : Bool := s.from_ < 4160
  let add16512 : Bool := s.from_ < 16512
  let add33024 : Bool := s.from_ < 33024
  let next : Loop := ⟨insert B ⟨s.from_, s.to_⟩ s.sizes, s.to_ + 1, nextSize s.to_⟩
  addSize B 33024 add33024 (addSize B 16512 add16512 (addSize B 4160 add4160
    (addSize B 1600 add1600 next)))

/-- The loop, for some steps at most. -/
def loop (maxBlockSize : Nat) : Nat → Loop → Option Loop
  | 0, _ => none
  | n + 1, s => if s.to_ < maxBlockSize then loop maxBlockSize n (step B s) else some s

/-- The last range is added. -/
def finish (maxBlockSize : Nat) (s : Loop) : SearchTree KeyRange :=
  insert B ⟨s.from_, maxBlockSize⟩ s.sizes

/-- `setMinMaxSizes`, where the loop ends in less than `n` steps. -/
def setMinMaxSizes (n minBlockSize maxBlockSize : Nat) : Option (SearchTree KeyRange) :=
  (loop B maxBlockSize n ⟨.leaf, 1, minBlockSize⟩).map (finish B maxBlockSize)

/-- `keyForSize` -/
def keyForSize (sizes : SearchTree KeyRange) (size : Nat) : KeyRange :=
  match sizes.find KeyRange.less id ⟨size, size⟩ with
  | some key => key
  | none => ⟨size, size⟩

/-- **The law of the sizes**: each size up to the maximum is in one range, which is found. -/
structure Law (sizes : SearchTree KeyRange) (maxBlockSize : Nat) : Prop where
  valid : ∀ key ∈ sizes.toList, key.from_ ≤ key.to_
  disjoint : sizes.toList.Pairwise fun a b => a.to_ < b.from_ ∨ b.to_ < a.from_
  covers : ∀ size, (∃ key ∈ sizes.toList, key.Contains size) ↔ 1 ≤ size ∧ size ≤ maxBlockSize
  found : ∀ size, 1 ≤ size → size ≤ maxBlockSize → ∀ key,
    key ∈ sizes.toList ∧ key.Contains size ↔ key = keyForSize sizes size

/-- The law after `setMinMaxSizes`, which ends. -/
def Lawful (minBlockSize maxBlockSize : Nat) : Prop :=
  ∃ n sizes, setMinMaxSizes B n minBlockSize maxBlockSize = some sizes ∧ Law sizes maxBlockSize

/-! ### When the law holds -/

/-- The last one of the sizes from `size` on that is not above 1600, or the one after `n` steps. -/
def lastSize : Nat → Nat → Nat
  | 0, size => size
  | n + 1, size => if nextSize size ≤ 1600 then lastSize n (nextSize size) else size

/-- The last one of the sizes from 49568 on before the next one is past the end of `size_t`. -/
def lastSize64 : Nat := 13647076347975021760

/-- A maximum above 1600 is not between a size and the one that is put in behind it, and not above
the last size. -/
structure Above (maxBlockSize : Nat) : Prop where
  above_1600 : 1600 < maxBlockSize
  not_4160 : ¬ (3680 < maxBlockSize ∧ maxBlockSize ≤ 4160)
  not_16512 : ¬ (14176 < maxBlockSize ∧ maxBlockSize ≤ 16512)
  not_33024 : ¬ (24800 < maxBlockSize ∧ maxBlockSize ≤ 33024)
  le_lastSize : maxBlockSize ≤ lastSize64

/-- The limits fit the sizes. -/
def Fits (minBlockSize maxBlockSize : Nat) : Prop :=
  minBlockSize = maxBlockSize ∨ minBlockSize < 1600 ∧
    (maxBlockSize ≤ lastSize 1600 minBlockSize ∨
      lastSize 1600 minBlockSize < 1600 ∧ Above maxBlockSize)

/-! ### Ranges one after the other -/

/-- The ranges follow each other from the first size up to, not including, the last one. -/
inductive Tiles : Nat → List KeyRange → Nat → Prop
  | nil (first : Nat) : Tiles first [] first
  | cons {first to_ last : Nat} {l : List KeyRange} (h : first ≤ to_)
      (tail : Tiles (to_ + 1) l last) : Tiles first (⟨first, to_⟩ :: l) last

namespace Tiles

variable {first last : Nat} {l : List KeyRange}

theorem concat (h : Tiles first l last) {to_ : Nat} (hle : last ≤ to_) :
    Tiles first (l ++ [⟨last, to_⟩]) (to_ + 1) := by
  induction h with
  | nil first => exact .cons hle (.nil _)
  | cons h _ ih => exact .cons h (ih hle)

theorem le (h : Tiles first l last) : first ≤ last := by
  induction h with
  | nil => exact le_rfl
  | cons h _ ih => omega

theorem bounds (h : Tiles first l last) {key : KeyRange} (hkey : key ∈ l) :
    first ≤ key.from_ ∧ key.from_ ≤ key.to_ ∧ key.to_ < last := by
  induction h with
  | nil => cases hkey
  | cons h tail ih =>
    obtain rfl | hkey := List.mem_cons.mp hkey
    · exact ⟨le_rfl, h, tail.le⟩
    · obtain ⟨hfrom, hvalid, hto⟩ := ih hkey
      exact ⟨by omega, hvalid, hto⟩

theorem ordered (h : Tiles first l last) : l.Pairwise fun a b => a.to_ < b.from_ := by
  induction h with
  | nil => exact .nil
  | cons _ tail ih =>
    refine List.pairwise_cons.mpr ⟨fun key hkey => ?_, ih⟩
    exact (tail.bounds hkey).1

theorem exists_contains (h : Tiles first l last) {size : Nat} (hfirst : first ≤ size)
    (hlast : size < last) : ∃ key ∈ l, key.Contains size := by
  induction h with
  | nil => omega
  | @cons first to_ last l h tail ih =>
    by_cases hto : size ≤ to_
    · exact ⟨_, List.mem_cons_self, hfirst, hto⟩
    · obtain ⟨key, hkey, hcontains⟩ := ih (by omega) hlast
      exact ⟨key, List.mem_cons_of_mem _ hkey, hcontains⟩

/-- The range of a size is found. -/
theorem keyForSize_eq {sizes : SearchTree KeyRange} (h : Tiles first sizes.toList last) {size : Nat}
    {key : KeyRange} (hkey : key ∈ sizes.toList) (hsize : key.Contains size) :
    keyForSize sizes size = key := by
  have hordered := h.ordered
  have hbounds := fun a (ha : a ∈ sizes.toList) => h.bounds ha
  obtain ⟨l, l', heq⟩ := List.append_of_mem hkey
  rw [heq] at hordered hbounds
  obtain ⟨-, hright, hcross⟩ := List.pairwise_append.mp hordered
  obtain ⟨hright, -⟩ := List.pairwise_cons.mp hright
  obtain ⟨hfrom, hto⟩ := hsize
  have hfind : sizes.find KeyRange.less id ⟨size, size⟩ = some key := by
    refine SearchTree.find_eq heq (fun a ha => ?_) ?_ ?_ fun a ha => ?_
    · have := hcross a ha key List.mem_cons_self
      exact decide_eq_true (by simp only [id]; omega)
    · exact decide_eq_false (by simp only [id]; omega)
    · exact decide_eq_false (by simp only [id]; omega)
    · have := hright a ha
      have hvalid := (hbounds a (List.mem_append_right _ (List.mem_cons_of_mem _ ha))).2.1
      exact decide_eq_false (by simp only [id]; omega)
  rw [keyForSize, hfind]

/-- **Ranges one after the other** fulfil the law. -/
theorem law {sizes : SearchTree KeyRange} {maxBlockSize : Nat}
    (h : Tiles 1 sizes.toList (maxBlockSize + 1)) : Law sizes maxBlockSize where
  valid key hkey := (h.bounds hkey).2.1
  disjoint := h.ordered.imp fun hab => .inl hab
  covers size := by
    constructor
    · rintro ⟨key, hkey, hfrom, hto⟩
      have := h.bounds hkey
      omega
    · rintro ⟨hone, hle⟩
      exact h.exists_contains hone (Nat.lt_succ_of_le hle)
  found size hone hle key := by
    constructor
    · rintro ⟨hkey, hsize⟩
      exact (h.keyForSize_eq hkey hsize).symm
    · rintro rfl
      obtain ⟨key, hkey, hsize⟩ := h.exists_contains hone (Nat.lt_succ_of_le hle)
      rw [h.keyForSize_eq hkey hsize]
      exact ⟨hkey, hsize⟩

end Tiles

/-- Some range ends before it begins. -/
def Inverted (sizes : SearchTree KeyRange) : Prop := ∃ key ∈ sizes.toList, key.to_ < key.from_

theorem Inverted.not_law {sizes : SearchTree KeyRange} {maxBlockSize : Nat} (h : Inverted sizes) :
    ¬ Law sizes maxBlockSize := by
  obtain ⟨key, hkey, hlt⟩ := h
  intro hlaw
  have := hlaw.valid key hkey
  omega

section
variable {B} {sizes : SearchTree KeyRange} {from_ to_ : Nat}

theorem Inverted.insert (h : Inverted sizes) (key : KeyRange) : Inverted (insert B key sizes) := by
  obtain ⟨other, hother, hlt⟩ := h
  refine ⟨other, ?_, hlt⟩
  rw [MemBlockSizes.insert, B.toList_balance]
  exact SearchTree.mem_insertUnique_of_mem hother

/-- A range behind all others is added, also when it ends before it begins. -/
theorem inverted_insert (h : Tiles 1 sizes.toList from_) (hlt : to_ < from_) :
    Inverted (insert B ⟨from_, to_⟩ sizes) := by
  refine ⟨⟨from_, to_⟩, ?_, hlt⟩
  rw [insert, B.toList_balance]
  refine SearchTree.mem_insertUnique (fun a ha => ?_) nofun
  exact decide_eq_true (h.bounds ha).2.2

theorem tiles_insert (h : Tiles 1 sizes.toList from_) (hle : from_ ≤ to_) :
    Tiles 1 (insert B ⟨from_, to_⟩ sizes).toList (to_ + 1) := by
  have hconcat : (insert B ⟨from_, to_⟩ sizes).toList = sizes.toList ++ [⟨from_, to_⟩] := by
    rw [insert, B.toList_balance]
    refine SearchTree.insertUnique_eq_concat (fun a ha => ?_) nofun
    have hbounds := h.bounds ha
    exact ⟨decide_eq_true hbounds.2.2, decide_eq_false (by simp only; omega)⟩
  rw [hconcat]
  exact h.concat hle

end

/-! ### The loop -/

theorem nextSize_eq (size : Nat) :
    nextSize size = (32 + (size + size / 2) % 2 ^ 64 / 32 * 32) % 2 ^ 64 := by
  rw [nextSize, Nat.shiftLeft_eq, Nat.shiftRight_eq_div_pow, Nat.shiftRight_eq_div_pow]

section
variable {B} {maxBlockSize : Nat} {sizes : SearchTree KeyRange} {from_ to_ special : Nat}
  {add : Bool} {s : Loop} {P : Prop}

/-- From here on the loop ends, and the law holds then. -/
def Reaches (B : SearchTree.Balancing KeyRange) (maxBlockSize : Nat) (s : Loop) : Prop :=
  ∃ n s', loop B maxBlockSize n s = some s' ∧ Law (finish B maxBlockSize s') maxBlockSize

theorem lawful_iff {minBlockSize : Nat} :
    Lawful B minBlockSize maxBlockSize ↔ Reaches B maxBlockSize ⟨.leaf, 1, minBlockSize⟩ := by
  simp only [Lawful, Reaches, setMinMaxSizes, Option.map_eq_some_iff]
  constructor
  · rintro ⟨n, _, ⟨s', hs', rfl⟩, hlaw⟩
    exact ⟨n, s', hs', hlaw⟩
  · rintro ⟨n, s', hs', hlaw⟩
    exact ⟨n, _, ⟨s', hs', rfl⟩, hlaw⟩

theorem reaches_step (h : s.to_ < maxBlockSize) :
    Reaches B maxBlockSize s ↔ Reaches B maxBlockSize (step B s) := by
  constructor
  · rintro ⟨n, s', hs', hlaw⟩
    cases n with
    | zero => cases hs'
    | succ n =>
      rw [loop, if_pos h] at hs'
      exact ⟨n, s', hs', hlaw⟩
  · rintro ⟨n, s', hs', hlaw⟩
    refine ⟨n + 1, s', ?_, hlaw⟩
    rwa [loop, if_pos h]

theorem inverted_addSize (h : Inverted s.sizes) : Inverted (addSize B special add s).sizes := by
  rw [addSize]
  split_ifs
  · exact h.insert _
  · exact h

theorem inverted_step (h : Inverted s.sizes) : Inverted (step B s).sizes :=
  inverted_addSize (inverted_addSize (inverted_addSize (inverted_addSize (h.insert _))))

/-- An inverted range is never taken back. -/
theorem Inverted.not_reaches (h : Inverted s.sizes) : ¬ Reaches B maxBlockSize s := by
  rintro ⟨n, s', hs', hlaw⟩
  have hinverted : Inverted s'.sizes := by
    induction n generalizing s with
    | zero => cases hs'
    | succ n ih =>
      rw [loop] at hs'
      split_ifs at hs'
      · exact ih (inverted_step h) hs'
      · cases hs'
        exact h
  exact (hinverted.insert _).not_law hlaw

theorem addSize_skip (h : add = false ∨ s.to_ ≤ special) : addSize B special add s = s := by
  rw [addSize, if_neg]
  rw [Bool.and_eq_true, decide_eq_true_iff]
  rintro ⟨hadd, hlt⟩
  rcases h with h | h
  · rw [h] at hadd
    cases hadd
  · omega

theorem addSize_add (hadd : add = true) (h : special < s.to_) :
    addSize B special add s =
      ⟨insert B ⟨s.from_, special⟩ s.sizes, special + 1, nextSize special⟩ := by
  rw [addSize, if_pos]
  rw [hadd, decide_eq_true h]
  rfl

/-- From any sizes up to `from_`, the law is reached if and only if `P` holds. -/
def Settles (B : SearchTree.Balancing KeyRange) (maxBlockSize from_ to_ : Nat) (P : Prop) : Prop :=
  ∀ sizes : SearchTree KeyRange, Tiles 1 sizes.toList from_ →
    (Reaches B maxBlockSize ⟨sizes, from_, to_⟩ ↔ P)

/-- **The end of the loop.** -/
theorem settles_end (h : maxBlockSize ≤ to_) :
    Settles B maxBlockSize from_ to_ (from_ ≤ maxBlockSize) := by
  intro sizes hsizes
  constructor
  · rintro ⟨n, s', hs', hlaw⟩
    by_contra hlt
    cases n with
    | zero => cases hs'
    | succ n =>
      rw [loop, if_neg (by simp only; omega)] at hs'
      cases hs'
      exact (inverted_insert hsizes (by omega)).not_law hlaw
  · intro hle
    refine ⟨1, ⟨sizes, from_, to_⟩, ?_, (tiles_insert hsizes hle).law⟩
    rw [loop, if_neg (by simp only; omega)]

/-- The size is not put in: it is passed already, or not yet. -/
def Skips (from_ to_ special : Nat) : Prop := special ≤ from_ ∨ to_ ≤ special

instance : Decidable (Skips from_ to_ special) := inferInstanceAs (Decidable (_ ∨ _))

/-- Some of the sizes that are put in, in the step that begins at `from_`. -/
def addSizes (B : SearchTree.Balancing KeyRange) (from_ : Nat) (specials : List Nat) (s : Loop) :
    Loop :=
  specials.foldl (fun s special => addSize B special (decide (from_ < special)) s) s

theorem step_eq : step B ⟨sizes, from_, to_⟩ = addSizes B from_ [1600, 4160, 16512, 33024]
    ⟨insert B ⟨from_, to_⟩ sizes, to_ + 1, nextSize to_⟩ := rfl

theorem addSizes_skip {specials : List Nat} (h : ∀ special ∈ specials, Skips from_ s.to_ special) :
    addSizes B from_ specials s = s := by
  induction specials with
  | nil => rfl
  | cons special specials ih =>
    obtain ⟨hspecial, h⟩ := List.forall_mem_cons.mp h
    have hskip : addSize B special (decide (from_ < special)) s = s :=
      addSize_skip (hspecial.imp_left fun hle => decide_eq_false (by omega))
    rw [addSizes, List.foldl_cons, hskip]
    exact ih h

theorem addSizes_append (l l' : List Nat) :
    addSizes B from_ (l ++ l') s = addSizes B from_ l' (addSizes B from_ l s) := List.foldl_append

/-- One of the sizes is put in. -/
theorem addSizes_add {l l' : List Nat} (hl : ∀ other ∈ l, Skips from_ s.to_ other)
    (hfrom : from_ < special) (hnext : special < s.to_)
    (hl' : ∀ other ∈ l', Skips from_ (nextSize special) other) :
    addSizes B from_ (l ++ special :: l') s =
      ⟨insert B ⟨s.from_, special⟩ s.sizes, special + 1, nextSize special⟩ := by
  have hskip : addSizes B from_ l s = s := addSizes_skip hl
  rw [addSizes_append, hskip, addSizes, List.foldl_cons, ← addSizes,
    addSize_add (decide_eq_true hfrom) hnext]
  exact addSizes_skip hl'

theorem inverted_addSizes {specials : List Nat} (h : Inverted s.sizes) :
    Inverted (addSizes B from_ specials s).sizes := by
  induction specials generalizing s with
  | nil => exact h
  | cons special specials ih => exact ih (inverted_addSize h)

/-- **A step** that adds one range. -/
theorem settles_next (hle : from_ ≤ to_) (hlt : to_ < maxBlockSize)
    (hskips : ∀ special ∈ [1600, 4160, 16512, 33024], Skips from_ (nextSize to_) special)
    (h : Settles B maxBlockSize (to_ + 1) (nextSize to_) P) :
    Settles B maxBlockSize from_ to_ P := by
  intro sizes hsizes
  rw [reaches_step hlt, step_eq, addSizes_skip hskips]
  exact h _ (tiles_insert hsizes hle)

/-- **A step** that puts a size in. -/
theorem settles_special (hle : from_ ≤ to_) (hlt : to_ < maxBlockSize) {l l' : List Nat}
    (heq : [1600, 4160, 16512, 33024] = l ++ special :: l') (hfrom : from_ < special)
    (hto : to_ < special) (hnext : special < nextSize to_)
    (hl : ∀ other ∈ l, Skips from_ (nextSize to_) other)
    (hl' : ∀ other ∈ l', Skips from_ (nextSize special) other)
    (h : Settles B maxBlockSize (special + 1) (nextSize special) P) :
    Settles B maxBlockSize from_ to_ P := by
  intro sizes hsizes
  rw [reaches_step hlt, step_eq, heq, addSizes_add hl hfrom hnext hl']
  exact h _ (tiles_insert (tiles_insert hsizes hle) hto)

/-- A size that is above the one that is put in behind it. -/
theorem settles_above (hle : from_ ≤ to_) (hlt : to_ < maxBlockSize) (hfrom : from_ < 1600)
    (hto : 1600 ≤ to_) (hnext : 1600 < nextSize to_) : Settles B maxBlockSize from_ to_ False := by
  intro sizes hsizes
  rw [reaches_step hlt, step_eq, addSizes, List.foldl_cons, ← addSizes,
    addSize_add (decide_eq_true hfrom) hnext, iff_false]
  refine (inverted_addSizes ?_).not_reaches
  exact inverted_insert (tiles_insert hsizes hle) (by simp only; omega)

/-- A size that is less than where its range begins. -/
theorem settles_back (hlt : to_ < from_) (hmax : to_ < maxBlockSize) :
    Settles B maxBlockSize from_ to_ False := by
  intro sizes hsizes
  rw [reaches_step hmax, step_eq, iff_false]
  exact (inverted_addSizes (inverted_insert hsizes hlt)).not_reaches

theorem Settles.congr {Q : Prop} (h : Settles B maxBlockSize from_ to_ P) (hPQ : P ↔ Q) :
    Settles B maxBlockSize from_ to_ Q := fun sizes hsizes => (h sizes hsizes).trans hPQ

/-! ### The sizes -/

/-- The next size is one of `size_t`. -/
def Exact (size : Nat) : Prop := 32 + (size + size / 2) / 32 * 32 < 2 ^ 64

instance (size : Nat) : Decidable (Exact size) := inferInstanceAs (Decidable (_ < _))

theorem Exact.nextSize_eq {size : Nat} (h : Exact size) :
    nextSize size = 32 + (size + size / 2) / 32 * 32 := by
  have hlt : size + size / 2 < 2 ^ 64 := by
    rw [Exact] at h
    omega
  rw [MemBlockSizes.nextSize_eq, Nat.mod_eq_of_lt hlt, Nat.mod_eq_of_lt h]

theorem Exact.lt_nextSize {size : Nat} (h : Exact size) : size < nextSize size := by
  rw [h.nextSize_eq]
  omega

theorem Exact.nextSize_lt {size : Nat} (h : Exact size) : nextSize size < 2 ^ 64 := by
  rw [h.nextSize_eq]
  exact h

/-- Past the end of `size_t` the sizes begin anew. -/
theorem nextSize_lt_of_not_exact {size : Nat} (hsize : size < 2 ^ 64) (h : ¬ Exact size) :
    nextSize size < size := by
  rw [Exact] at h
  rw [nextSize_eq]
  by_cases hlt : size + size / 2 < 2 ^ 64
  · have hend : 32 + (size + size / 2) / 32 * 32 = 2 ^ 64 := by omega
    rw [Nat.mod_eq_of_lt hlt, hend, Nat.mod_self]
    omega
  · have hmod : (size + size / 2) % 2 ^ 64 = size + size / 2 - 2 ^ 64 := by omega
    refine (Nat.mod_le _ _).trans_lt ?_
    rw [hmod]
    omega

theorem le_iterate_nextSize : ∀ {n size : Nat}, (∀ i < n, Exact (nextSize^[i] size)) →
    size ≤ nextSize^[n] size := by
  intro n
  induction n with
  | zero => exact fun _ => le_rfl
  | succ n ih =>
    intro size h
    have hnext : size < nextSize size := (h 0 (Nat.succ_pos n)).lt_nextSize
    exact hnext.le.trans (ih fun i hi => h (i + 1) (Nat.succ_lt_succ hi))

/-- **Behind 33024** the law is reached for a maximum up to the last size of `size_t`. -/
theorem settles_large : ∀ {n from_ to_ : Nat}, 33024 < from_ → from_ ≤ to_ → to_ < 2 ^ 64 →
    (∀ i < n, Exact (nextSize^[i] to_)) → ¬ Exact (nextSize^[n] to_) →
    Settles B maxBlockSize from_ to_ (from_ ≤ maxBlockSize ∧ maxBlockSize ≤ nextSize^[n] to_) := by
  intro n
  induction n with
  | zero =>
    intro from_ to_ hlarge hle hto _ hwrap
    have hskips : ∀ special ∈ [1600, 4160, 16512, 33024], Skips from_ (nextSize to_) special := by
      simp only [List.forall_mem_cons, Skips]
      exact ⟨by omega, by omega, by omega, by omega, nofun⟩
    by_cases hmax : maxBlockSize ≤ to_
    · exact (settles_end hmax).congr (and_iff_left hmax).symm
    · have hback : nextSize to_ < to_ := nextSize_lt_of_not_exact hto hwrap
      exact (settles_next hle (not_le.mp hmax) hskips
        (settles_back (by omega) (by omega))).congr (iff_of_false id fun h => hmax h.2)
  | succ n ih =>
    intro from_ to_ hlarge hle hto hexact hwrap
    have hskips : ∀ special ∈ [1600, 4160, 16512, 33024], Skips from_ (nextSize to_) special := by
      simp only [List.forall_mem_cons, Skips]
      exact ⟨by omega, by omega, by omega, by omega, nofun⟩
    have hfirst : Exact to_ := hexact 0 (Nat.succ_pos n)
    by_cases hmax : maxBlockSize ≤ to_
    · have hlast := hmax.trans (le_iterate_nextSize hexact)
      exact (settles_end hmax).congr (and_iff_left hlast).symm
    · have hlarge' : 33024 < to_ + 1 := by omega
      have hnext := ih hlarge' hfirst.lt_nextSize hfirst.nextSize_lt
        (fun i hi => hexact (i + 1) (Nat.succ_lt_succ hi)) hwrap
      refine (settles_next hle (not_le.mp hmax) hskips hnext).congr ?_
      exact and_congr_left fun _ => iff_of_true (by omega) (by omega)

/-- One range, or the last one. -/
theorem settles_step (hle : from_ ≤ to_)
    (hskips : ∀ special ∈ [1600, 4160, 16512, 33024], Skips from_ (nextSize to_) special)
    (h : Settles B maxBlockSize (to_ + 1) (nextSize to_) P) :
    Settles B maxBlockSize from_ to_
      (maxBlockSize ≤ to_ ∧ from_ ≤ maxBlockSize ∨ to_ < maxBlockSize ∧ P) := by
  by_cases hmax : maxBlockSize ≤ to_
  · exact (settles_end hmax).congr (by simp [hmax, hmax.not_gt])
  · have hlt := not_le.mp hmax
    exact (settles_next hle hlt hskips h).congr (by simp [hlt, hmax])

/-- One range and the one up to a size that is put in, or the last one. -/
theorem settles_step_special (hle : from_ ≤ to_) {l l' : List Nat}
    (heq : [1600, 4160, 16512, 33024] = l ++ special :: l') (hfrom : from_ < special)
    (hto : to_ < special) (hnext : special < nextSize to_)
    (hl : ∀ other ∈ l, Skips from_ (nextSize to_) other)
    (hl' : ∀ other ∈ l', Skips from_ (nextSize special) other)
    (h : Settles B maxBlockSize (special + 1) (nextSize special) P) :
    Settles B maxBlockSize from_ to_
      (maxBlockSize ≤ to_ ∧ from_ ≤ maxBlockSize ∨ to_ < maxBlockSize ∧ P) := by
  by_cases hmax : maxBlockSize ≤ to_
  · exact (settles_end hmax).congr (by simp [hmax, hmax.not_gt])
  · have hlt := not_le.mp hmax
    exact (settles_special hle hlt heq hfrom hto hnext hl hl' h).congr (by simp [hlt, hmax])

theorem lastSize64_eq : lastSize64 = nextSize^[82] 49568 := by decide +kernel

theorem settles_33025 : Settles B maxBlockSize 33025 49568
    (33025 ≤ maxBlockSize ∧ maxBlockSize ≤ lastSize64) := by
  rw [lastSize64_eq]
  exact settles_large (by decide) (by decide) (by decide) (by decide +kernel) (by decide +kernel)

/-- **Behind 1600** the sizes do not depend on the minimum. -/
theorem settles_1601 : Settles B maxBlockSize 1601 2432 (Above maxBlockSize) := by
  have h33024 : [1600, 4160, 16512, 33024] = [1600, 4160, 16512] ++ 33024 :: [] := rfl
  have h16512 : [1600, 4160, 16512, 33024] = [1600, 4160] ++ 16512 :: [33024] := rfl
  have h4160 : [1600, 4160, 16512, 33024] = [1600] ++ 4160 :: [16512, 33024] := rfl
  have h24800 : Settles B maxBlockSize 16513 24800 _ :=
    settles_step_special (by decide) h33024 (by decide) (by decide) (by decide) (by decide)
      (by decide) settles_33025
  have h14176 : Settles B maxBlockSize 9441 14176 _ :=
    settles_step_special (by decide) h16512 (by decide) (by decide) (by decide) (by decide)
      (by decide) h24800
  have h9440 : Settles B maxBlockSize 6273 9440 _ := settles_step (by decide) (by decide) h14176
  have h6272 : Settles B maxBlockSize 4161 6272 _ := settles_step (by decide) (by decide) h9440
  have h3680 : Settles B maxBlockSize 2433 3680 _ :=
    settles_step_special (by decide) h4160 (by decide) (by decide) (by decide) (by decide)
      (by decide) h6272
  have h2432 : Settles B maxBlockSize 1601 2432 _ := settles_step (by decide) (by decide) h3680
  refine h2432.congr ?_
  have hlast : 49568 < lastSize64 := by decide
  constructor
  · intro h
    exact ⟨by omega, by omega, by omega, by omega, by omega⟩
  · rintro ⟨_, _, _, _, _⟩
    omega

theorem exact_of_le {size : Nat} (h : size ≤ 1600) : Exact size := by
  rw [Exact]
  omega

theorem le_lastSize : ∀ {n size : Nat}, size ≤ 1600 → size ≤ lastSize n size := by
  intro n
  induction n with
  | zero => exact fun _ => le_rfl
  | succ n ih =>
    intro size hsize
    rw [lastSize]
    split_ifs with hnext
    · exact (exact_of_le hsize).lt_nextSize.le.trans (ih hnext)
    · exact le_rfl

theorem lastSize_eq_self {n size : Nat} (h : 1600 < nextSize size) : lastSize n size = size := by
  cases n with
  | zero => rfl
  | succ n => rw [lastSize, if_neg (not_le.mpr h)]

/-- **Up to 1600** the sizes grow from the minimum on. -/
theorem settles_small : ∀ {n from_ to_ : Nat}, from_ ≤ to_ → from_ < 1600 → to_ ≤ 1600 →
    1600 ≤ to_ + n → from_ ≤ maxBlockSize →
    Settles B maxBlockSize from_ to_
      (maxBlockSize ≤ lastSize n to_ ∨ lastSize n to_ < 1600 ∧ Above maxBlockSize) := by
  intro n
  induction n with
  | zero =>
    intro from_ to_ hle hfrom hto hn hmax
    obtain rfl : to_ = 1600 := by omega
    by_cases hend : maxBlockSize ≤ 1600
    · exact (settles_end hend).congr (iff_of_true hmax (.inl hend))
    · have habove : Settles B maxBlockSize from_ 1600 False :=
        settles_above hle (not_le.mp hend) hfrom le_rfl (by decide)
      exact habove.congr (iff_of_false id fun h => h.elim hend fun h => lt_irrefl _ h.1)
  | succ n ih =>
    intro from_ to_ hle hfrom hto hn hmax
    have hexact := exact_of_le hto
    have hnext := hexact.nextSize_eq
    by_cases hend : maxBlockSize ≤ to_
    · exact (settles_end hend).congr (iff_of_true hmax (.inl (hend.trans (le_lastSize hto))))
    · have hlt := not_le.mp hend
      by_cases h1600 : nextSize to_ ≤ 1600
      · have hskips : ∀ special ∈ [1600, 4160, 16512, 33024],
            Skips from_ (nextSize to_) special := by
          simp only [List.forall_mem_cons, Skips]
          exact ⟨by omega, by omega, by omega, by omega, nofun⟩
        rw [lastSize, if_pos h1600]
        exact settles_next hle hlt hskips
          (ih (by omega) (by omega) h1600 (by omega) (by omega))
      · have h1600 := not_le.mp h1600
        rw [lastSize_eq_self h1600]
        by_cases hless : to_ < 1600
        · have hothers : ∀ other ∈ [4160, 16512, 33024], nextSize 1600 ≤ other := by decide
          have hspecial : Settles B maxBlockSize from_ to_ (Above maxBlockSize) :=
            settles_special hle hlt (List.nil_append _).symm hfrom hless h1600 nofun
              (fun other hother => .inr (hothers other hother)) settles_1601
          exact hspecial.congr (by simp [hend, hless])
        · exact (settles_above hle hlt hfrom (not_lt.mp hless) h1600).congr
            (iff_of_false id fun h => h.elim hend fun h => hless h.1)

theorem settles_fits {minBlockSize : Nat} (hmin : 1 ≤ minBlockSize)
    (hle : minBlockSize ≤ maxBlockSize) :
    Settles B maxBlockSize 1 minBlockSize (Fits minBlockSize maxBlockSize) := by
  by_cases hsmall : minBlockSize < 1600
  · have hone : 1 ≤ maxBlockSize := hmin.trans hle
    refine (settles_small hmin (by decide) hsmall.le (Nat.le_add_left _ _) hone).congr ?_
    constructor
    · exact fun h => .inr ⟨hsmall, h⟩
    · rintro (rfl | ⟨-, h⟩)
      · exact .inl (le_lastSize hsmall.le)
      · exact h
  · by_cases hmax : maxBlockSize ≤ minBlockSize
    · exact (settles_end hmax).congr (iff_of_true (hmin.trans hle) (.inl (le_antisymm hle hmax)))
    · have hlt := not_le.mp hmax
      have hfalse : False ↔ Fits minBlockSize maxBlockSize :=
        iff_of_false id fun h => h.elim hlt.ne fun h => hsmall h.1
      refine Settles.congr ?_ hfalse
      by_cases h1600 : nextSize minBlockSize ≤ 1600
      · have hskips : ∀ special ∈ [1600, 4160, 16512, 33024],
            Skips 1 (nextSize minBlockSize) special := by
          simp only [List.forall_mem_cons, Skips]
          exact ⟨by omega, by omega, by omega, by omega, nofun⟩
        exact settles_next hmin hlt hskips (settles_back (by omega) (by omega))
      · exact settles_above hmin hlt (by decide) (not_lt.mp hsmall) (not_le.mp h1600)

end

/-- **When the law holds**: the minimum is the maximum; or the maximum is not above the last size up
to 1600, or that one is below 1600 and the maximum is not in a gap behind it. -/
theorem lawful_iff_fits {minBlockSize maxBlockSize : Nat} (hmin : 1 ≤ minBlockSize)
    (hle : minBlockSize ≤ maxBlockSize) :
    Lawful B minBlockSize maxBlockSize ↔ Fits minBlockSize maxBlockSize :=
  lawful_iff.trans (settles_fits hmin hle .leaf (.nil 1))

/-- The sizes from 32 to 64 KiB, which are the default. -/
theorem lawful_default : Lawful (.unchanged _) 32 65536 :=
  (lawful_iff_fits _ (by decide) (by decide)).mpr
    (.inr ⟨by decide, .inr ⟨by decide +kernel, ⟨by decide, by decide, by decide, by decide,
      by decide⟩⟩⟩)

/-- A maximum behind the last size up to 1600. -/
theorem sizes_inverted :
    (setMinMaxSizes (.unchanged _) 10 32 1300).map SearchTree.toList =
        some [⟨1, 32⟩, ⟨33, 64⟩, ⟨65, 128⟩, ⟨129, 224⟩, ⟨225, 352⟩, ⟨353, 544⟩, ⟨545, 832⟩,
          ⟨833, 1280⟩, ⟨1281, 1600⟩, ⟨1601, 1300⟩] ∧
      ¬ Lawful (.unchanged _) 32 1300 := by
  refine ⟨by decide +kernel, fun h => ?_⟩
  have hfits : ¬ Fits 32 1300 := by
    rintro (h | ⟨-, h | ⟨-, h⟩⟩)
    · cases h
    · exact absurd h (by decide +kernel)
    · exact absurd h.above_1600 (by decide)
  exact hfits ((settles_fits (by decide) (by decide) .leaf (.nil 1)).mp (lawful_iff.mp h))

end MemBlockSizes

end Hatn.Common
