import Hatn.Db.SearchRanges

/-!
# What a search finds

The ranges of the conditions are put together over the fields.  A range with one side of its
own takes the other side from the field before it, so that its values are cut out right only
behind a condition on a single value (`Chained`).  Where that is so, the search calls back
for the entries whose fields satisfy their conditions, each once (`search_hits`).
-/

namespace Hatn.Db

open Query Search

namespace IndexKeySearch

/-! ### Entries of a level -/

/-- The fields of the entry behind the key prefix are set. -/
def Stored : Key → List Field → Entry → Prop
  | _, [], _ => True
  | P, _ :: fs, e => ∃ w, w ≠ [] ∧ Part P w e ∧ Stored (P ++ separatorChar :: w) fs e

/-- The fields of the entry satisfy their conditions as forms. -/
def Hit : Key → List Field → Entry → Prop
  | _, [], _ => True
  | P, f :: fs, e => ∃ w, w ≠ [] ∧ Part P w e ∧ (∃ v ∈ f.variants, Sat v w) ∧
    Hit (P ++ separatorChar :: w) fs e

/-- The entries of the source in their order; those of the level have their fields set. -/
structure Placed (src : Source) (P : Key) (fs : List Field) : Prop where
  sorted : src.entries.Pairwise fun e e' => e.key < e'.key
  stored : ∀ e ∈ src.entries, P ++ [separatorChar] <+: e.key → Stored P fs e

/-- The entries of the source in their order; those of the level have their fields set and
are not passed over. -/
structure Kept (src : Source) (P : Key) (fs : List Field) : Prop where
  sorted : src.entries.Pairwise fun e e' => e.key < e'.key
  stored : ∀ e ∈ src.entries, P ++ [separatorChar] <+: e.key →
    Stored P fs e ∧ ∀ pos, src.isFiltered pos e = false

/-- The search gets to the entry: before the last field some entry with its part is not passed
over, and at the last field the entry itself is not. -/
def Reached (src : Source) : Nat → Key → List Field → Entry → Prop
  | _, _, [], _ => True
  | n, _, [_], e => src.isFiltered (n + 1) e = false
  | n, P, _ :: g :: fs, e => ∃ w, Part P w e ∧
    (∃ e' ∈ src.entries, src.isFiltered (n + 1) e' = false ∧ Part P w e') ∧
      Reached src (n + 1) (P ++ separatorChar :: w) (g :: fs) e

theorem Kept.placed {src : Source} {P : Key} {fs : List Field} (h : Kept src P fs) :
    Placed src P fs := ⟨h.sorted, fun e he hp => (h.stored e he hp).1⟩

theorem Part.of_starts_next {P w : Key} {e : Entry} (hw : Clean w)
    (h : P ++ separatorChar :: w ++ [separatorChar] <+: e.key) : Part P w e := by
  obtain ⟨r, hr⟩ := h
  exact ⟨hw, r, by rw [← hr]; simp⟩

theorem Part.starts {P w : Key} {e : Entry} (h : Part P w e) : P ++ [separatorChar] <+: e.key := by
  obtain ⟨r, hr⟩ := h.key_eq
  exact ⟨_, hr.symm⟩

/-- Where the next part is clean, what the next field finds has it. -/
theorem Hit.part {P w : Key} {f : Field} {fs : List Field} {e : Entry} (hw : Clean w)
    (h : Hit (P ++ separatorChar :: w) (f :: fs) e) : Part P w e := by
  obtain ⟨w', -, hp, -⟩ := h
  exact .of_starts_next hw hp.starts

theorem Kept.next {src : Source} {P w : Key} {f : Field} {fs : List Field}
    (h : Kept src P (f :: fs)) (hw : Clean w) : Kept src (P ++ separatorChar :: w) fs where
  sorted := h.sorted
  stored e he hp := by
    have hpart := Part.of_starts_next hw hp
    obtain ⟨⟨w', -, hp', hstored⟩, hfilter⟩ := h.stored e he hpart.starts
    rw [hp'.unique hpart] at hstored
    exact ⟨hstored, hfilter⟩

theorem Placed.next {src : Source} {P w : Key} {f : Field} {fs : List Field}
    (h : Placed src P (f :: fs)) (hw : Clean w) : Placed src (P ++ separatorChar :: w) fs where
  sorted := h.sorted
  stored e he hp := by
    have hpart := Part.of_starts_next hw hp
    obtain ⟨w', -, hp', hstored⟩ := h.stored e he hpart.starts
    rwa [hp'.unique hpart] at hstored

/-- Where nothing is passed over, the search gets everywhere. -/
theorem Kept.reached {src : Source} {e : Entry} (he : e ∈ src.entries) : ∀ {fs : List Field}
    {n : Nat} {P : Key}, Kept src P fs → Hit P fs e → Reached src n P fs e := by
  intro fs
  induction fs with
  | nil => exact fun _ _ => trivial
  | cons f fs ih =>
    rintro n P hk ⟨w, -, hp, -, hhit⟩
    have hfilter := (hk.stored e he hp.starts).2
    cases fs with
    | nil => exact hfilter (n + 1)
    | cons g fs =>
      exact ⟨w, hp, ⟨e, he, hfilter (n + 1), hp⟩, ih (hk.next hp.1) hhit⟩

/-! ### One range -/

theorem entries_before {src : Source} (h : src.entries.Pairwise fun e e' => e.key < e'.key)
    (forward : Bool) : (if forward then src.entries else src.entries.reverse).Pairwise
      fun e e' => Before forward e.key e'.key := by
  cases forward with
  | true => exact h
  | false => exact List.pairwise_reverse.mpr h

theorem mem_entries_iff {src : Source} {forward : Bool} {e : Entry} :
    e ∈ (if forward then src.entries else src.entries.reverse) ↔ e ∈ src.entries := by
  cases forward <;> simp

section
variable {src : Source} {n : Nat} {P prevFrom prevTo : Key} {v f g : Field} {fs : List Field}

/-- The search of a range in terms of its bounds. -/
theorem iterateFieldVariant_eq (h : PlainRange v)
    (inner : Option (Key → Key → Key → Visits Entry Key)) (pos : Nat) :
    iterateFieldVariant src pos inner v prevFrom prevTo P =
      iterate src pos P.length (v.order = .asc) (v.op = .eq) false inner
        (if (v.order = .asc : Bool) then src.entries else src.entries.reverse)
        (rangeBounds v (P ++ [separatorChar]) prevFrom prevTo) P := by
  rw [iterateFieldVariant, plan_eq h]

/-- What holds of the entries in the bounds of a range. -/
theorem Placed.in_bounds (hk : Placed src P (f :: fs))
    (hc : Cuts P (rangeBounds v (P ++ [separatorChar]) prevFrom prevTo) v) {e : Entry}
    (he : e ∈ src.entries)
    (hb : (rangeBounds v (P ++ [separatorChar]) prevFrom prevTo).contains e = true) :
    ∃ w, w ≠ [] ∧ Part P w e ∧ Sat v w := by
  obtain ⟨w, hne, hp, -⟩ := hk.stored e he (hc.level hb)
  exact ⟨w, hne, hp, (hc.contains hne hp).mp hb⟩

theorem Kept.in_bounds (hk : Kept src P (f :: fs))
    (hc : Cuts P (rangeBounds v (P ++ [separatorChar]) prevFrom prevTo) v) {e : Entry}
    (he : e ∈ src.entries)
    (hb : (rangeBounds v (P ++ [separatorChar]) prevFrom prevTo).contains e = true) :
    (∀ pos, src.isFiltered pos e = false) ∧ ∃ w, w ≠ [] ∧ Part P w e ∧ Sat v w :=
  ⟨(hk.stored e he (hc.level hb)).2, hk.placed.in_bounds hc he hb⟩

/-- **The last range** calls back for the entries with a part in it that are not passed over. -/
theorem variant_entries (hk : Placed src P [f]) (h : PlainRange v)
    (hprev : TwoSided v ∨ prevFrom = P ++ [separatorChar] ∧ prevTo = P ++ [separatorCharPlus]) :
    (iterateFieldVariant src (n + 1) none v prevFrom prevTo P).all.Pairwise
        (fun e e' => Before (v.order = .asc) e.key e'.key) ∧
      ∀ e, e ∈ (iterateFieldVariant src (n + 1) none v prevFrom prevTo P).all ↔
        e ∈ src.entries ∧ src.isFiltered (n + 1) e = false ∧
          ∃ w, w ≠ [] ∧ Part P w e ∧ Sat v w := by
  have hc := rangeBounds_cuts h hprev
  rw [iterateFieldVariant_eq h, iterate_last]
  refine ⟨(entries_before hk.sorted _).filter _, fun e => ?_⟩
  rw [List.mem_filter, mem_entries_iff, Bool.and_eq_true_iff, Bool.not_eq_true']
  constructor
  · rintro ⟨he, hb, hfilter⟩
    exact ⟨he, hfilter, hk.in_bounds hc he hb⟩
  · rintro ⟨he, hfilter, w, hne, hp, hsat⟩
    exact ⟨he, (hc.contains hne hp).mpr hsat, hfilter⟩

/-- Where nothing is passed over, these are all entries with a part in it. -/
theorem variant_last (hk : Kept src P [f]) (h : PlainRange v)
    (hprev : TwoSided v ∨ prevFrom = P ++ [separatorChar] ∧ prevTo = P ++ [separatorCharPlus]) :
    (iterateFieldVariant src (n + 1) none v prevFrom prevTo P).all.Pairwise
        (fun e e' => Before (v.order = .asc) e.key e'.key) ∧
      ∀ e, e ∈ (iterateFieldVariant src (n + 1) none v prevFrom prevTo P).all ↔
        e ∈ src.entries ∧ ∃ w, w ≠ [] ∧ Part P w e ∧ Sat v w := by
  obtain ⟨hbefore, hmem⟩ := variant_entries (n := n) hk.placed h hprev
  refine ⟨hbefore, fun e => (hmem e).trans (and_congr_right fun he => ?_)⟩
  exact and_iff_right_of_imp fun ⟨w, _, hp, _⟩ => (hk.stored e he hp.starts).2 _

/-- A condition on a single value: its form, and the bounds around it. -/
theorem eq_range (h : PlainRange v) (hop : v.op = .eq) : ∃ x : Key, (∀ w, Sat v w ↔ w = x) ∧
    ∀ P₀ prevFrom prevTo, rangeBounds v P₀ prevFrom prevTo =
      .range (P₀ ++ (x ++ [separatorChar])) (P₀ ++ (x ++ [separatorCharPlus])) := by
  obtain ⟨c, op, value, order⟩ := v
  cases hop
  cases value with
  | scalar s => exact ⟨scalarForm c.form s, fun w => Iff.rfl, fun _ _ _ => rfl⟩
  | interval i => exact absurd h id
  | vector l => exact absurd h id

/-- **A range before the last** searches behind each of the parts in it that have an entry which
is not passed over, in its order. -/
theorem variant_groups (hP : Level src n P) (hk : Placed src P (f :: g :: fs)) (h : PlainRange v)
    (hprev : TwoSided v ∨ prevFrom = P ++ [separatorChar] ∧ prevTo = P ++ [separatorCharPlus])
    (hI : v.op = .eq ∨ ∀ w from_ to_ from' to',
      (nextKeyField src (n + 2) (g :: fs) (P ++ separatorChar :: w) from_ to_).all =
        (nextKeyField src (n + 2) (g :: fs) (P ++ separatorChar :: w) from' to').all) :
    ∃ ws : List Key, ws.Pairwise (Before (v.order = .asc)) ∧
      (iterateFieldVariant src (n + 1) (behind src (n + 1) (g :: fs)) v prevFrom prevTo P).all =
        ws.flatMap (fun w => (nextKeyField src (n + 2) (g :: fs) (P ++ separatorChar :: w)
          (rangeBounds v (P ++ [separatorChar]) prevFrom prevTo).from_
          (rangeBounds v (P ++ [separatorChar]) prevFrom prevTo).to_).all) ∧
      ∀ w, w ∈ ws ↔ w ≠ [] ∧ Sat v w ∧
        ∃ e ∈ src.entries, src.isFiltered (n + 1) e = false ∧ Part P w e := by
  have hc := rangeBounds_cuts h hprev
  rw [iterateFieldVariant_eq h]
  generalize hb : rangeBounds v (P ++ [separatorChar]) prevFrom prevTo = b at hc ⊢
  have hin : ∀ e ∈ src.entries, b.contains e = true →
      ∃ w, w ≠ [] ∧ Part P w e ∧ Sat v w := by
    subst hb
    exact fun e he hb => hk.in_bounds hc he hb
  obtain ⟨ws, hws, hall, hmem⟩ : ∃ ws : List Key, ws.Pairwise (Before (v.order = .asc)) ∧
      (iterate src (n + 1) P.length (v.order = .asc) (v.op = .eq) false
        (behind src (n + 1) (g :: fs))
        (if (v.order = .asc : Bool) then src.entries else src.entries.reverse) b P).all =
        ws.flatMap (fun w => (nextKeyField src (n + 2) (g :: fs) (P ++ separatorChar :: w)
          b.from_ b.to_).all) ∧
      ∀ w, w ∈ ws ↔ ∃ e ∈ (if (v.order = .asc : Bool) then src.entries else src.entries.reverse),
        b.contains e = true ∧ src.isFiltered (n + 1) e = false ∧ Part P w e := by
    refine iterate_groups hP (nextKeyField_value src (g :: fs) (n + 2)) _ b
      (entries_before hk.sorted _) (fun e he hb' => ?_) (fun w from_ to_ heq => ?_)
      (fun heq => ?_)
    · obtain ⟨w, -, hp, -⟩ := hin e (mem_entries_iff.mp he) hb'
      exact ⟨w, hp⟩
    · obtain hop | hI := hI
      · obtain ⟨rfl, rfl⟩ := heq (decide_eq_true hop)
        rfl
      · exact hI ..
    · obtain ⟨x, hx, -⟩ := eq_range h (of_decide_eq_true heq)
      refine ⟨x, fun e he hb' => ?_⟩
      obtain ⟨w, -, hp, hsat⟩ := hin e (mem_entries_iff.mp he) hb'
      rwa [(hx w).mp hsat] at hp
  refine ⟨ws, hws, hall, fun w => ?_⟩
  rw [hmem w]
  constructor
  · rintro ⟨e, he, hb, hfilter, hp⟩
    have he := mem_entries_iff.mp he
    obtain ⟨w', hne, hp', hsat⟩ := hin e he hb
    rw [hp.unique hp']
    exact ⟨hne, hsat, e, he, hfilter, hp'⟩
  · rintro ⟨hne, hsat, e, he, hfilter, hp⟩
    exact ⟨e, mem_entries_iff.mpr he, (hc.contains hne hp).mpr hsat, hfilter, hp⟩

/-- Where nothing is passed over, these are all parts in it. -/
theorem variant_inner (hP : Level src n P) (hk : Kept src P (f :: g :: fs)) (h : PlainRange v)
    (hprev : TwoSided v ∨ prevFrom = P ++ [separatorChar] ∧ prevTo = P ++ [separatorCharPlus])
    (hI : v.op = .eq ∨ ∀ w from_ to_ from' to',
      (nextKeyField src (n + 2) (g :: fs) (P ++ separatorChar :: w) from_ to_).all =
        (nextKeyField src (n + 2) (g :: fs) (P ++ separatorChar :: w) from' to').all) :
    ∃ ws : List Key, ws.Pairwise (Before (v.order = .asc)) ∧
      (iterateFieldVariant src (n + 1) (behind src (n + 1) (g :: fs)) v prevFrom prevTo P).all =
        ws.flatMap (fun w => (nextKeyField src (n + 2) (g :: fs) (P ++ separatorChar :: w)
          (rangeBounds v (P ++ [separatorChar]) prevFrom prevTo).from_
          (rangeBounds v (P ++ [separatorChar]) prevFrom prevTo).to_).all) ∧
      ∀ w, w ∈ ws ↔ w ≠ [] ∧ Sat v w ∧ ∃ e ∈ src.entries, Part P w e := by
  obtain ⟨ws, hws, hall, hmem⟩ := variant_groups hP hk.placed h hprev hI
  refine ⟨ws, hws, hall, fun w => (hmem w).trans ?_⟩
  refine and_congr_right fun _ => and_congr_right fun _ => exists_congr fun e =>
    and_congr_right fun he => and_iff_right_of_imp fun hp => (hk.stored e he hp.starts).2 _

theorem rangeBounds_twoSided (h : PlainRange v) (ht : TwoSided v) (P₀ from_ to_ from' to' : Key) :
    rangeBounds v P₀ from_ to_ = rangeBounds v P₀ from' to' := by
  obtain ⟨c, op, value, order⟩ := v
  obtain rfl | rfl := ht <;> cases value <;> rfl

/-- Ranges with both sides of their own do not depend on the bounds before them. -/
theorem nextKeyField_all_twoSided (h : ∀ v ∈ f.variants, PlainRange v ∧ TwoSided v) (pos : Nat)
    (from_ to_ from' to' : Key) : (nextKeyField src pos (f :: fs) P from_ to_).all =
      (nextKeyField src pos (f :: fs) P from' to').all := by
  rw [nextKeyField_all, nextKeyField_all]
  refine List.flatMap_congr fun v hv => ?_
  obtain ⟨hrange, htwo⟩ := h v hv
  rw [iterateFieldVariant_eq hrange, iterateFieldVariant_eq hrange,
    rangeBounds_twoSided hrange htwo _ from_ to_ from' to']

end

/-! ### All fields -/

/-- The variants of the condition are ranges of values that are apart. -/
structure Apart (f : Field) : Prop where
  plain : ∀ v ∈ f.variants, PlainRange v
  apart : f.variants.Pairwise fun v v' => ∀ w, Sat v w → ¬ Sat v' w

/-- A condition stands behind one on single values, or has both sides of its own. -/
def Follows (f g : Field) : Prop :=
  (∀ v ∈ f.variants, v.op = .eq) ∨ ∀ v ∈ g.variants, TwoSided v

def Chained (fs : List Field) : Prop := fs.IsChain Follows

/-- The bounds a condition gets are those of its level, or do not matter. -/
def Pinned (P : Key) (f : Field) (prevFrom prevTo : Key) : Prop :=
  (∀ v ∈ f.variants, TwoSided v) ∨
    prevFrom = P ++ [separatorChar] ∧ prevTo = P ++ [separatorCharPlus]

theorem Pinned.variant {P prevFrom prevTo : Key} {f v : Field} (h : Pinned P f prevFrom prevTo)
    (hv : v ∈ f.variants) :
    TwoSided v ∨ prevFrom = P ++ [separatorChar] ∧ prevTo = P ++ [separatorCharPlus] :=
  h.imp_left fun h => h v hv

/-- Behind a part, the next condition is pinned to the level of that part. -/
theorem Follows.pinned {f g v : Field} (h : Follows f g) (hv : v ∈ f.variants)
    (hplain : PlainRange v) {P w : Key} (prevFrom prevTo : Key) (hsat : Sat v w) :
    Pinned (P ++ separatorChar :: w) g
      (rangeBounds v (P ++ [separatorChar]) prevFrom prevTo).from_
      (rangeBounds v (P ++ [separatorChar]) prevFrom prevTo).to_ := by
  refine h.symm.imp_right fun heq => ?_
  obtain ⟨x, hx, hb⟩ := eq_range hplain (heq v hv)
  rw [hb, (hx w).mp hsat]
  simp [Bounds.range]

theorem Before.ne {forward : Bool} {k k' : Key} (h : Before forward k k') : k ≠ k' := by
  cases forward with
  | true => exact ne_of_lt h
  | false => exact ne_of_gt h

theorem Before.asymm {forward : Bool} {k k' : Key} (h : Before forward k k') :
    ¬ Before forward k' k := by
  cases forward with
  | true => exact lt_asymm h
  | false => exact lt_asymm h

theorem Before.trans {forward : Bool} {k k' k'' : Key} (h : Before forward k k')
    (h' : Before forward k' k'') : Before forward k k'' := by
  cases forward with
  | true => exact lt_trans h h'
  | false => exact lt_trans h' h

/-- Ranges that are apart find together what satisfies one of them, each entry once. -/
theorem finds_variants {P : Key} {f : Field} {l : Field → List Entry} {R : Key → Entry → Prop}
    (hf : Apart f) (h : ∀ v ∈ f.variants, (l v).Nodup ∧
      ∀ e, e ∈ l v ↔ ∃ w, w ≠ [] ∧ Part P w e ∧ Sat v w ∧ R w e) :
    (f.variants.flatMap l).Nodup ∧ ∀ e, e ∈ f.variants.flatMap l ↔
      ∃ w, w ≠ [] ∧ Part P w e ∧ (∃ v ∈ f.variants, Sat v w) ∧ R w e := by
  constructor
  · refine List.nodup_flatMap.mpr ⟨fun v hv => (h v hv).1, hf.apart.imp_of_mem ?_⟩
    rintro v v' hv hv' hapart e he he'
    obtain ⟨w, -, hp, hsat, -⟩ := ((h v hv).2 e).mp he
    obtain ⟨w', -, hp', hsat', -⟩ := ((h v' hv').2 e).mp he'
    rw [hp'.unique hp] at hsat'
    exact hapart w hsat hsat'
  · intro e
    rw [List.mem_flatMap]
    constructor
    · rintro ⟨v, hv, he⟩
      obtain ⟨w, hne, hp, hsat, hr⟩ := ((h v hv).2 e).mp he
      exact ⟨w, hne, hp, ⟨v, hv, hsat⟩, hr⟩
    · rintro ⟨w, hne, hp, ⟨v, hv, hsat⟩, hr⟩
      exact ⟨v, hv, ((h v hv).2 e).mpr ⟨w, hne, hp, hsat, hr⟩⟩

/-- **The search over the fields** calls back for the entries that satisfy all conditions and
that it gets to, for each once. -/
theorem nextKeyField_reached {src : Source} : ∀ (fs : List Field) (f : Field) (n : Nat) (P : Key)
    (prevFrom prevTo : Key), Level src n P → Placed src P (f :: fs) →
      (∀ g ∈ f :: fs, Apart g) → Chained (f :: fs) → Pinned P f prevFrom prevTo →
        (nextKeyField src (n + 1) (f :: fs) P prevFrom prevTo).all.Nodup ∧
          ∀ e, e ∈ (nextKeyField src (n + 1) (f :: fs) P prevFrom prevTo).all ↔
            e ∈ src.entries ∧ Hit P (f :: fs) e ∧ Reached src n P (f :: fs) e := by
  intro fs
  induction fs with
  | nil =>
    intro f n P prevFrom prevTo hP hk hapart hchain hpin
    have hf := hapart f List.mem_cons_self
    rw [nextKeyField_all]
    refine (finds_variants (P := P)
      (R := fun _ e => e ∈ src.entries ∧ src.isFiltered (n + 1) e = false) hf fun v hv => ?_).imp_right fun hmem e => (hmem e).trans ?_
    · obtain ⟨hsorted, hmem⟩ := variant_entries (n := n) hk (hf.plain v hv) (hpin.variant hv)
      refine ⟨hsorted.imp fun hb heq => hb.ne (by rw [heq]), fun e => (hmem e).trans ?_⟩
      constructor
      · rintro ⟨he, hfilter, w, hne, hp, hsat⟩
        exact ⟨w, hne, hp, hsat, he, hfilter⟩
      · rintro ⟨w, hne, hp, hsat, he, hfilter⟩
        exact ⟨he, hfilter, w, hne, hp, hsat⟩
    · constructor
      · rintro ⟨w, hne, hp, hsat, he, hfilter⟩
        exact ⟨he, ⟨w, hne, hp, hsat, trivial⟩, hfilter⟩
      · rintro ⟨he, ⟨w, hne, hp, hsat, -⟩, hfilter⟩
        exact ⟨w, hne, hp, hsat, he, hfilter⟩
  | cons g fs ih =>
    intro f n P prevFrom prevTo hP hk hapart hchain hpin
    have hf := hapart f List.mem_cons_self
    have hg : ∀ g' ∈ g :: fs, Apart g' := fun g' hg' => hapart g' (List.mem_cons_of_mem f hg')
    obtain ⟨hfollows, hchain⟩ := List.isChain_cons_cons.mp hchain
    rw [nextKeyField_all]
    refine (finds_variants (P := P) (R := fun w e => e ∈ src.entries ∧
      Hit (P ++ separatorChar :: w) (g :: fs) e ∧
        (∃ e' ∈ src.entries, src.isFiltered (n + 1) e' = false ∧ Part P w e') ∧
          Reached src (n + 1) (P ++ separatorChar :: w) (g :: fs) e) hf
            fun v hv => ?_).imp_right fun hmem e => (hmem e).trans ?_
    · have hplain := hf.plain v hv
      obtain ⟨ws, hws, hall, hmem⟩ := variant_groups (v := v) hP hk hplain (hpin.variant hv)
        (hfollows.imp (fun h => h v hv) fun h w from_ to_ from' to' =>
          nextKeyField_all_twoSided
            (fun v' hv' => ⟨(hg g List.mem_cons_self).plain v' hv', h v' hv'⟩) _ _ _ _ _)
      -- what is found behind each part
      have hnext : ∀ w ∈ ws, Clean w ∧ _ := fun w hw => by
        obtain ⟨-, hsat, e, -, -, hp⟩ := (hmem w).mp hw
        exact ⟨hp.1, ih g (n + 1) (P ++ separatorChar :: w) _ _ (hP.next hp.1) (hk.next hp.1) hg
          hchain (hfollows.pinned hv hplain prevFrom prevTo hsat)⟩
      rw [hall]
      constructor
      · refine List.nodup_flatMap.mpr ⟨fun w hw => (hnext w hw).2.1, hws.imp_of_mem ?_⟩
        rintro w w' hw hw' hb e he he'
        have hp := (((hnext w hw).2.2 e).mp he).2.1.part (hnext w hw).1
        have hp' := (((hnext w' hw').2.2 e).mp he').2.1.part (hnext w' hw').1
        exact hb.ne (hp.unique hp')
      · intro e
        rw [List.mem_flatMap]
        constructor
        · rintro ⟨w, hw, he⟩
          obtain ⟨he, hhit, hreached⟩ := ((hnext w hw).2.2 e).mp he
          obtain ⟨hne, hsat, hgroup⟩ := (hmem w).mp hw
          exact ⟨w, hne, hhit.part (hnext w hw).1, hsat, he, hhit, hgroup, hreached⟩
        · rintro ⟨w, hne, hp, hsat, he, hhit, hgroup, hreached⟩
          have hw := (hmem w).mpr ⟨hne, hsat, hgroup⟩
          exact ⟨w, hw, ((hnext w hw).2.2 e).mpr ⟨he, hhit, hreached⟩⟩
    · constructor
      · rintro ⟨w, hne, hp, hsat, he, hhit, hgroup, hreached⟩
        exact ⟨he, ⟨w, hne, hp, hsat, hhit⟩, w, hp, hgroup, hreached⟩
      · rintro ⟨he, ⟨w, hne, hp, hsat, hhit⟩, w', hp', hgroup, hreached⟩
        rw [hp'.unique hp] at hgroup hreached
        exact ⟨w, hne, hp, hsat, he, hhit, hgroup, hreached⟩

/-- Where nothing is passed over, these are all entries that satisfy the conditions. -/
theorem nextKeyField_hits {src : Source} (fs : List Field) (f : Field) (n : Nat) (P : Key)
    (prevFrom prevTo : Key) (hP : Level src n P) (hk : Kept src P (f :: fs))
    (hapart : ∀ g ∈ f :: fs, Apart g) (hchain : Chained (f :: fs))
    (hpin : Pinned P f prevFrom prevTo) :
    (nextKeyField src (n + 1) (f :: fs) P prevFrom prevTo).all.Nodup ∧
      ∀ e, e ∈ (nextKeyField src (n + 1) (f :: fs) P prevFrom prevTo).all ↔
        e ∈ src.entries ∧ Hit P (f :: fs) e := by
  obtain ⟨hnodup, hmem⟩ := nextKeyField_reached fs f n P prevFrom prevTo hP hk.placed hapart
    hchain hpin
  refine ⟨hnodup, fun e => (hmem e).trans (and_congr_right fun he => ?_)⟩
  exact and_iff_left_of_imp fun hhit => hk.reached he hhit

/-- **The search in a topic.** -/
theorem searchTopic_hits {src : Source} {f : Field} {fs : List Field}
    (hk : Kept src src.start (f :: fs)) (hapart : ∀ g ∈ f :: fs, Apart g)
    (hchain : Chained (f :: fs)) : (searchTopic src (f :: fs)).all.Nodup ∧
      ∀ e, e ∈ (searchTopic src (f :: fs)).all ↔ e ∈ src.entries ∧ Hit src.start (f :: fs) e :=
  nextKeyField_hits fs f 0 src.start _ _ (level_start src) hk hapart hchain (.inr ⟨rfl, rfl⟩)

end IndexKeySearch

end Hatn.Db
