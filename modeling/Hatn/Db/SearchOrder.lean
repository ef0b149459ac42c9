import Hatn.Db.QueryAnswers

/-!
# Searches that are stopped, and the order of what they find

A search that is told to stop goes on with what is left of the outer fields.  `reports_hits`
says that it still calls back for entries that satisfy all conditions only, provided that
the last condition has no ranges with one side behind another range.

`nextKeyField_precedes` says that the entries are found in the order of their parts, each
part in the direction of its condition.
-/

namespace Hatn.Db

open Query Search

namespace IndexKeySearch

section
variable {src : Source} {n : Nat} {P : Key}

/-! ### The last field -/

/-- The key prefix a search of the last field is left with: that of the level, or the one of
a part that was found. -/
def Left (P : Key) (S : Key → Prop) (p : Key) : Prop :=
  p = P ∨ ∃ w, w ≠ [] ∧ Clean w ∧ S w ∧ p = P ++ separatorChar :: w

theorem Left.prefix_ {S : Key → Prop} {p : Key} (h : Left P S p) : P <+: p := by
  obtain rfl | ⟨w, -, -, -, rfl⟩ := h
  · exact List.prefix_refl _
  · exact List.prefix_append _ _

/-- An iteration of the last field calls back for entries in its bounds. -/
theorem reports_iterate_last (hP : Level src n P) {S : Key → Prop} {forward exact single : Bool}
    {b : Bounds} {p : Key} (hp : Left P S p) : ∀ es : List Entry,
      (∀ e ∈ es, b.contains e = true → src.isFiltered (n + 1) e = false →
        ∃ w, w ≠ [] ∧ Part P w e ∧ S w ∧ (p = P ∨ p = P ++ separatorChar :: w)) →
      (iterate src (n + 1) p.length forward exact single none es b p).Reports
        (fun e => e ∈ es ∧ ∃ w, w ≠ [] ∧ Part P w e ∧ S w) (Left P S) := by
  intro es
  induction es with
  | nil => exact fun _ => hp
  | cons e es ih =>
    intro hin
    have ih : (iterate src (n + 1) p.length forward exact single none es b p).Reports
        (fun e' => e' ∈ e :: es ∧ ∃ w, w ≠ [] ∧ Part P w e' ∧ S w) (Left P S) :=
      (ih fun e' he' => hin e' (List.mem_cons_of_mem e he')).mono
        (fun e' he' => ⟨List.mem_cons_of_mem e he'.1, he'.2⟩) fun _ h => h
    rw [iterate]
    by_cases hskip : (!b.contains e || src.isFiltered (n + 1) e) = true
    · rw [if_pos hskip]
      exact ih
    · rw [if_neg hskip]
      rw [Bool.or_eq_true, Bool.not_eq_true', not_or, Bool.not_eq_false, Bool.not_eq_true] at hskip
      obtain ⟨w, hne, hw, hs, hpw⟩ := hin e List.mem_cons_self hskip.1 hskip.2
      have hkey : keyPrefix e.key src.topic (n + 1) = P ++ separatorChar :: w := by
        obtain ⟨hclean, r, hr⟩ := hw
        rw [hr, keyPrefix_eq hP hclean]
      have hleft : Left P S (appendPrefix p (keyPrefix e.key src.topic (n + 1))) := by
        rw [hkey]
        refine .inr ⟨w, hne, hw.1, hs, ?_⟩
        obtain rfl | rfl := hpw
        · exact appendPrefix_eq p w
        · rw [appendPrefix, if_neg (Nat.lt_irrefl _)]
      refine ⟨⟨List.mem_cons_self, w, hne, hw, hs⟩, fun go => ?_⟩
      cases go with
      | false => exact hleft
      | true =>
        cases single with
        | true =>
          show Left P S ((appendPrefix p _).take p.length)
          rw [appendPrefix_take]
          exact hp
        | false =>
          show (iterate src (n + 1) p.length forward exact false none es b
            ((appendPrefix p _).take p.length)).Reports _ _
          rw [appendPrefix_take]
          exact ih

theorem reports_foldlM {Q : Entry → Prop} {R : Key → Prop} {body : Key → Field → Visits Entry Key}
    {vs : List Field} (h : ∀ v ∈ vs, ∀ p, R p → (body p v).Reports Q R) :
    ∀ p, R p → (vs.foldlM body p).Reports Q R := by
  induction vs with
  | nil => exact fun _ hp => hp
  | cons v vs ih =>
    intro p hp
    rw [List.foldlM_cons]
    exact (h v List.mem_cons_self p hp).bind (ih fun v' hv' => h v' (List.mem_cons_of_mem v hv'))

/-- The values of the ranges of a condition. -/
def InRange (f : Field) (w : Key) : Prop := ∃ v ∈ f.variants, Sat v w

variable {f g v : Field} {fs : List Field} {prevFrom prevTo : Key}

/-- A range of the last field; behind a stop in another range, it has to be one with both sides
of its own. -/
theorem reports_variant_last (hP : Level src n P) (hk : Kept src P [f]) (hv : v ∈ f.variants)
    (h : PlainRange v) (hpin : Pinned P f prevFrom prevTo) {p : Key} (hp : Left P (InRange f) p)
    (hcase : p = P ∨ TwoSided v) :
    (iterateFieldVariant src (n + 1) none v prevFrom prevTo p).Reports
      (fun e => e ∈ src.entries ∧ Hit P [f] e) (Left P (InRange f)) := by
  rw [iterateFieldVariant_eq h]
  refine (reports_iterate_last hP hp _ fun e he hb _ => ?_).mono (fun e he => ?_) fun _ h => h
  · have he := mem_entries_iff.mp he
    obtain rfl | htwo := hcase
    · obtain ⟨-, w, hne, hw, hsat⟩ := hk.in_bounds (rangeBounds_cuts h (hpin.variant hv)) he hb
      exact ⟨w, hne, hw, ⟨v, hv, hsat⟩, .inl rfl⟩
    · obtain rfl | ⟨w, hne, hclean, hs, rfl⟩ := hp
      · obtain ⟨-, w, hne, hw, hsat⟩ := hk.in_bounds (rangeBounds_cuts h (.inl htwo)) he hb
        exact ⟨w, hne, hw, ⟨v, hv, hsat⟩, .inl rfl⟩
      · have hlevel := (rangeBounds_cuts h (.inl htwo)).level hb
        exact ⟨w, hne, .of_starts_next hclean hlevel, hs, .inr rfl⟩
  · obtain ⟨he, w, hne, hw, hs⟩ := he
    exact ⟨mem_entries_iff.mp he, w, hne, hw, hs, trivial⟩

/-- The last condition is one range, or has ranges with both sides of their own. -/
def OneRange (f : Field) : Prop := f.variants.length ≤ 1 ∨ ∀ v ∈ f.variants, TwoSided v

theorem reports_last (hP : Level src n P) (hk : Kept src P [f]) (hf : Apart f)
    (hpin : Pinned P f prevFrom prevTo) (hone : OneRange f) :
    (nextKeyField src (n + 1) [f] P prevFrom prevTo).Reports
      (fun e => e ∈ src.entries ∧ Hit P [f] e) (P <+: ·) := by
  rw [nextKeyField_cons]
  refine Visits.Reports.mono (R := Left P (InRange f)) ?_ (fun _ h => h) fun _ h => h.prefix_
  obtain hone | htwo := hone
  · cases hvs : f.variants with
    | nil => exact .inl rfl
    | cons v vs =>
      have hnil : vs = [] := by
        rw [hvs, List.length_cons] at hone
        exact List.length_eq_zero_iff.mp (by omega)
      have hv : v ∈ f.variants := by rw [hvs]; exact List.mem_cons_self
      rw [hnil, List.foldlM_cons]
      refine (reports_variant_last hP hk hv (hf.plain v hv) hpin (.inl rfl) (.inl rfl)).bind
        fun p hp => ?_
      exact hp
  · exact reports_foldlM (fun v hv p hp =>
      reports_variant_last hP hk hv (hf.plain v hv) hpin hp (.inr (htwo v hv))) P (.inl rfl)

/-! ### All fields -/

/-- An iteration before the last field puts the cursor back, whatever the search in the next
fields was told. -/
theorem reports_iterate_inner (hP : Level src n P) {S : Key → Prop} {H : Entry → Prop}
    {forward exact single : Bool} {next : Key → Key → Key → Visits Entry Key} :
    ∀ (es : List Entry) (b : Bounds), es.Pairwise (fun e e' => Before forward e.key e'.key) →
      (∀ e ∈ es, b.contains e = true → ∃ w, Part P w e ∧ S w) →
      (∀ w, Clean w → S w → ∀ from_ to_, (exact = true → from_ = b.from_ ∧ to_ = b.to_) →
        (next (P ++ separatorChar :: w) from_ to_).Reports H (P ++ separatorChar :: w <+: ·)) →
      (iterate src (n + 1) P.length forward exact single (some next) es b P).Reports H (· = P) := by
  intro es
  induction es with
  | nil => exact fun _ _ _ _ => rfl
  | cons e es ih =>
    intro b hes hin hnext
    obtain ⟨hfirst, hes⟩ := List.pairwise_cons.mp hes
    rw [iterate]
    by_cases hskip : (!b.contains e || src.isFiltered (n + 1) e) = true
    · rw [if_pos hskip]
      exact ih b hes (fun e' he' => hin e' (List.mem_cons_of_mem e he')) hnext
    · rw [if_neg hskip]
      rw [Bool.or_eq_true, Bool.not_eq_true', not_or, Bool.not_eq_false] at hskip
      obtain ⟨w, hw, hs⟩ := hin e List.mem_cons_self hskip.1
      have hkey : keyPrefix e.key src.topic (n + 1) = P ++ separatorChar :: w := by
        obtain ⟨hclean, r, hr⟩ := hw
        rw [hr, keyPrefix_eq hP hclean]
      rw [hkey, appendPrefix_eq]
      refine (hnext w hw.1 hs b.from_ b.to_ fun _ => ⟨rfl, rfl⟩).bind fun p hp => ?_
      have htake : p.take P.length = P :=
        List.prefix_iff_eq_take.mp ((List.prefix_append P _).trans hp) |>.symm
      rw [htake]
      cases hexact : exact with
      | true => exact rfl
      | false =>
        have hrest : ∀ b' : Bounds, (∀ e' ∈ es, b'.contains e' = true → b.contains e' = true) →
            (iterate src (n + 1) P.length forward false single (some next) es b' P).Reports H
              (· = P) := by
          intro b' hb'
          have ih := ih b' hes
            (fun e' he' hb => hin e' (List.mem_cons_of_mem e he') (hb' e' he' hb))
            fun w hclean hs from_ to_ _ => hnext w hclean hs from_ to_ fun h => by
              rw [hexact] at h
              cases h
          rwa [hexact] at ih
        simp only [Bool.false_eq_true, if_false]
        cases hfind : es.find? b.contains with
        | none => exact rfl
        | some e' =>
          dsimp only
          by_cases hsame : keyPrefix e'.key src.topic (n + 1) = p
          · rw [if_pos hsame]
            exact hrest _ fun e'' he'' => contains_of_seekBehind (hfirst e'' he'') hskip.1
          · rw [if_neg hsame]
            exact hrest b fun _ _ h => h

/-- **A search that is stopped** still calls back for entries that satisfy all conditions only,
and its cursor is at least where it was. -/
theorem reports_hits : ∀ (fs : List Field) (f : Field) (n : Nat) (P prevFrom prevTo : Key),
    Level src n P → Kept src P (f :: fs) → (∀ g ∈ f :: fs, Apart g) → Chained (f :: fs) →
      Pinned P f prevFrom prevTo → OneRange ((f :: fs).getLast (List.cons_ne_nil f fs)) →
        (nextKeyField src (n + 1) (f :: fs) P prevFrom prevTo).Reports
          (fun e => e ∈ src.entries ∧ Hit P (f :: fs) e) (P <+: ·) := by
  intro fs
  induction fs with
  | nil =>
    intro f n P prevFrom prevTo hP hk hapart _ hpin hone
    exact reports_last hP hk (hapart f List.mem_cons_self) hpin hone
  | cons g fs ih =>
    intro f n P prevFrom prevTo hP hk hapart hchain hpin hone
    have hf := hapart f List.mem_cons_self
    have hg : ∀ g' ∈ g :: fs, Apart g' := fun g' hg' => hapart g' (List.mem_cons_of_mem f hg')
    obtain ⟨hfollows, hchain⟩ := List.isChain_cons_cons.mp hchain
    rw [List.getLast_cons (List.cons_ne_nil g fs)] at hone
    rw [nextKeyField_cons]
    refine Visits.Reports.mono (R := (· = P)) ?_ (fun _ h => h)
      fun p (hp : p = P) => hp ▸ List.prefix_refl P
    refine reports_foldlM (fun v hv p (hp : p = P) => ?_) P rfl
    have hplain := hf.plain v hv
    rw [hp, iterateFieldVariant_eq hplain]
    refine reports_iterate_inner hP (S := fun w => w ≠ [] ∧ Sat v w) _ _ (entries_before hk.sorted _)
      (fun e he hb => ?_) fun w hclean hs from_ to_ hexact => ?_
    · obtain ⟨-, w, hne, hw, hsat⟩ :=
        hk.in_bounds (rangeBounds_cuts hplain (hpin.variant hv)) (mem_entries_iff.mp he) hb
      exact ⟨w, hw, hne, hsat⟩
    · have hpinned : Pinned (P ++ separatorChar :: w) g from_ to_ := by
        obtain heq | htwo := hfollows
        · obtain ⟨rfl, rfl⟩ := hexact (decide_eq_true (heq v hv))
          exact Follows.pinned (.inl heq) hv hplain prevFrom prevTo hs.2
        · exact .inl htwo
      refine (ih g (n + 1) (P ++ separatorChar :: w) from_ to_ (hP.next hclean) (hk.next hclean) hg
        hchain hpinned hone).mono (fun e he => ⟨he.1, w, hs.1, he.2.part hclean, ⟨v, hv, hs.2⟩, he.2⟩)
        fun _ h => h

/-! ### The order -/

/-- The order of the parts of two entries, each in the direction of its condition; behind the
last one, the order of the keys. -/
def Precedes : Key → List Field → Entry → Entry → Prop
  | _, [], e, e' => e.key < e'.key
  | P, f :: fs, e, e' => ∃ w w', Part P w e ∧ Part P w' e' ∧
    if w = w' then Precedes (P ++ separatorChar :: w) fs e e' else Before (f.order = .asc) w w'

/-- All parts of the entries are the same. -/
def SameParts : Key → List Field → Entry → Entry → Prop
  | _, [], _, _ => True
  | P, _ :: fs, e, e' => ∃ w, Part P w e ∧ Part P w e' ∧ SameParts (P ++ separatorChar :: w) fs e e'

/-- The ranges of a condition are in its direction. -/
structure Directed (f : Field) : Prop where
  order : ∀ v ∈ f.variants, v.order = f.order
  before : f.variants.Pairwise fun v v' =>
    ∀ w w', Sat v w → Sat v' w' → Before (f.order = .asc) w w'

/-- Ties are met in the order of their keys, or there are none. -/
def Settled (src : Source) (P : Key) (fs : List Field) : Prop :=
  (∀ f, fs.getLast? = some f → f.order = .asc) ∨
    ∀ e ∈ src.entries, ∀ e' ∈ src.entries, Hit P fs e → Hit P fs e' → SameParts P fs e e' → e = e'

theorem precedes_of_before {w w' : Key} {e e' : Entry} (hw : Part P w e) (hw' : Part P w' e')
    (hb : Before (f.order = .asc) w w') : Precedes P (f :: fs) e e' :=
  ⟨w, w', hw, hw', by rw [if_neg hb.ne]; exact hb⟩

theorem precedes_of_same {w : Key} {e e' : Entry} (hw : Part P w e) (hw' : Part P w e')
    (h : Precedes (P ++ separatorChar :: w) fs e e') : Precedes P (f :: fs) e e' :=
  ⟨w, w, hw, hw', by rw [if_pos rfl]; exact h⟩

/-- **Ranges in the direction of their condition** find together in its order. -/
theorem precedes_variants {l : Field → List Entry} (hf : Directed f)
    (h : ∀ v ∈ f.variants, (l v).Pairwise (Precedes P (f :: fs)) ∧
      ∀ e ∈ l v, ∃ w, Part P w e ∧ Sat v w) :
    (f.variants.flatMap l).Pairwise (Precedes P (f :: fs)) := by
  rw [List.pairwise_flatMap]
  refine ⟨fun v hv => (h v hv).1, hf.before.imp_of_mem fun hv hv' hb e he e' he' => ?_⟩
  obtain ⟨w, hw, hsat⟩ := (h _ hv).2 e he
  obtain ⟨w', hw', hsat'⟩ := (h _ hv').2 e' he'
  exact precedes_of_before hw hw' (hb w w' hsat hsat')

/-- **The search over the fields** finds the entries in the order of their parts. -/
theorem nextKeyField_precedes : ∀ (fs : List Field) (f : Field) (n : Nat)
    (P prevFrom prevTo : Key), Level src n P → Kept src P (f :: fs) →
      (∀ g ∈ f :: fs, Apart g ∧ Directed g) → Chained (f :: fs) → Pinned P f prevFrom prevTo →
        Settled src P (f :: fs) →
          (nextKeyField src (n + 1) (f :: fs) P prevFrom prevTo).all.Pairwise
            (Precedes P (f :: fs)) := by
  intro fs
  induction fs with
  | nil =>
    intro f n P prevFrom prevTo hP hk hapart hchain hpin hsettled
    obtain ⟨hf, hdir⟩ := hapart f List.mem_cons_self
    rw [nextKeyField_all]
    refine precedes_variants hdir fun v hv => ?_
    obtain ⟨hsorted, hmem⟩ := variant_last (n := n) hk (hf.plain v hv) (hpin.variant hv)
    have hpart := fun e he => ((hmem e).mp he).2
    refine ⟨hsorted.imp_of_mem fun {e e'} he he' hb => ?_, fun e he => ?_⟩
    · obtain ⟨w, hne, hw, hsat⟩ := hpart e he
      obtain ⟨w', hne', hw', hsat'⟩ := hpart e' he'
      rw [hdir.order v hv] at hb
      by_cases heq : w = w'
      · subst heq
        refine precedes_of_same hw hw' ?_
        obtain hasc | htie := hsettled
        · rw [hasc f rfl] at hb
          exact hb
        · have hsame := htie e ((hmem e).mp he).1 e' ((hmem e').mp he').1
            ⟨w, hne, hw, ⟨v, hv, hsat⟩, trivial⟩ ⟨w, hne, hw', ⟨v, hv, hsat⟩, trivial⟩
            ⟨w, hw, hw', trivial⟩
          exact absurd (congrArg Entry.key hsame) hb.ne
      · exact precedes_of_before hw hw' (hw.before hw' hb heq)
    · obtain ⟨w, -, hw, hsat⟩ := hpart e he
      exact ⟨w, hw, hsat⟩
  | cons g fs ih =>
    intro f n P prevFrom prevTo hP hk hapart hchain hpin hsettled
    obtain ⟨hf, hdir⟩ := hapart f List.mem_cons_self
    have hg : ∀ g' ∈ g :: fs, Apart g' ∧ Directed g' := fun g' hg' =>
      hapart g' (List.mem_cons_of_mem f hg')
    obtain ⟨hfollows, hchain⟩ := List.isChain_cons_cons.mp hchain
    rw [nextKeyField_all]
    refine precedes_variants hdir fun v hv => ?_
    have hplain := hf.plain v hv
    obtain ⟨ws, hws, hall, hmem⟩ := variant_inner (v := v) hP hk hplain (hpin.variant hv)
      (hfollows.imp (fun h => h v hv) fun h w from_ to_ from' to' =>
        nextKeyField_all_twoSided
          (fun v' hv' => ⟨(hg g List.mem_cons_self).1.plain v' hv', h v' hv'⟩) _ _ _ _ _)
    rw [hdir.order v hv] at hws
    -- what is found behind each part, and in which order
    have hnext : ∀ w ∈ ws, Clean w ∧ Sat v w ∧ _ ∧ _ := fun w hw => by
      obtain ⟨hne, hsat, e, -, hp⟩ := (hmem w).mp hw
      have hpinned : Pinned (P ++ separatorChar :: w) g _ _ :=
        hfollows.pinned hv hplain prevFrom prevTo hsat
      have hsettled' : Settled src (P ++ separatorChar :: w) (g :: fs) := by
        refine hsettled.imp (fun h f' hf' => h f' (by rw [List.getLast?_cons_cons]; exact hf'))
          fun h e he e' he' hhit hhit' hsame => ?_
        have hw := hhit.part hp.1
        have hw' := hhit'.part hp.1
        exact h e he e' he' ⟨w, hne, hw, ⟨v, hv, hsat⟩, hhit⟩ ⟨w, hne, hw', ⟨v, hv, hsat⟩, hhit'⟩
          ⟨w, hw, hw', hsame⟩
      exact ⟨hp.1, hsat,
        nextKeyField_hits fs g (n + 1) (P ++ separatorChar :: w) _ _ (hP.next hp.1) (hk.next hp.1)
          (fun g' hg' => (hg g' hg').1) hchain hpinned,
        ih g (n + 1) (P ++ separatorChar :: w) _ _ (hP.next hp.1) (hk.next hp.1) hg hchain hpinned
          hsettled'⟩
    have hpart : ∀ w ∈ ws, ∀ e ∈ _, Part P w e := fun w hw e he =>
      (((hnext w hw).2.2.1.2 e).mp he).2.part (hnext w hw).1
    rw [hall]
    constructor
    · rw [List.pairwise_flatMap]
      refine ⟨fun w hw => (hnext w hw).2.2.2.imp_of_mem fun he he' h => ?_,
        hws.imp_of_mem fun hw hw' hb e he e' he' => ?_⟩
      · exact precedes_of_same (hpart w hw _ he) (hpart w hw _ he') h
      · exact precedes_of_before (hpart _ hw e he) (hpart _ hw' e' he') hb
    · intro e he
      obtain ⟨w, hw, he⟩ := List.mem_flatMap.mp he
      exact ⟨w, hpart w hw e he, (hnext w hw).2.1⟩

end

/-! ### Conditions -/

theorem order_of_mem_doNinFrom {f v : Field} {l : List f.column.Value} :
    ∀ {prev : f.column.Value}, v ∈ f.doNinFrom prev l → v.order = f.order := by
  induction l with
  | nil =>
    intro prev hv
    rw [Field.doNinFrom, List.mem_singleton] at hv
    rw [hv]
    rfl
  | cons y l ih =>
    intro prev hv
    rw [Field.doNinFrom, List.mem_cons] at hv
    obtain rfl | hv := hv
    · rfl
    · exact ih hv

theorem order_of_mem_doNinVector {f v : Field} {l : List f.column.Value}
    (hv : v ∈ f.doNinVector l) : v.order = f.order := by
  cases l with
  | nil => cases hv
  | cons y l =>
    obtain rfl | hv := List.mem_cons.mp hv
    · rfl
    · exact order_of_mem_doNinFrom hv

theorem directed_single {f : Field} (hv : f.variants = [f]) : Directed f where
  order v hmem := by
    rw [hv, List.mem_singleton] at hmem
    rw [hmem]
  before := by
    rw [hv]
    exact List.pairwise_singleton _ _

theorem directed_inVector {c : Column} (hc : c.Ordered) {l : List c.Value} (hl : l.Nodup)
    (order : Query.Order) : Directed ⟨c, .in_, .vector l, order⟩ where
  order v hv := by
    obtain ⟨y, -, rfl⟩ := List.mem_map.mp hv
    rfl
  before := by
    show ((sortVector order l).map _).Pairwise _
    rw [List.pairwise_map]
    have hnodup : (sortVector order l).Nodup := sortVector_nodup hl
    have hsat : ∀ {y : c.Value} {w : Key},
        Sat ⟨c, .eq, .scalar (.value y), order⟩ w → w = c.form y := fun h => h
    cases order with
    | asc =>
      have hsorted : (sortVector .asc l).Pairwise (· ≤ ·) := List.pairwise_insertionSort _ l
      refine (hsorted.and hnodup).imp fun {y y'} h w w' hw hw' => ?_
      show w < w'
      rw [hsat hw, hsat hw', hc.lt_iff]
      exact lt_of_le_of_ne h.1 h.2
    | desc =>
      have hsorted : (sortVector .desc l).Pairwise (· ≥ ·) := List.pairwise_insertionSort _ l
      refine (hsorted.and hnodup).imp fun {y y'} h w w' hw hw' => ?_
      show w' < w
      rw [hsat hw, hsat hw', hc.lt_iff]
      exact lt_of_le_of_ne h.1 h.2.symm

/-- **The conditions of ordinary operands** are searched in their direction, but for values to
leave out in descending order. -/
theorem directed_of_regular {f : Field} (hc : f.column.Ordered) (ho : OrdinaryField f)
    (hr : RegularField f) (hneq : f.op = .neq → f.order = .asc) : Directed f := by
  obtain ⟨c, op, value, order⟩ := f
  cases value with
  | scalar s =>
    cases op with
    | neq =>
      obtain rfl : order = .asc := hneq rfl
      refine ⟨fun v hv => ?_, ?_⟩
      · obtain rfl | hv := List.mem_cons.mp hv
        · rfl
        · obtain rfl := List.mem_singleton.mp hv
          rfl
      · refine List.pairwise_cons.mpr ⟨fun v hv w w' hsat hsat' => ?_, List.pairwise_singleton _ _⟩
        obtain rfl := List.mem_singleton.mp hv
        exact lt_trans hsat hsat'
    | in_ => exact absurd ho id
    | nin => exact absurd ho id
    | eq => exact directed_single rfl
    | gt => exact directed_single rfl
    | gte => exact directed_single rfl
    | lt => exact directed_single rfl
    | lte => exact directed_single rfl
  | interval i =>
    cases op with
    | in_ => exact directed_single rfl
    | eq => exact absurd ho id
    | gt => exact absurd ho id
    | gte => exact absurd ho id
    | lt => exact absurd ho id
    | lte => exact absurd ho id
    | neq => exact absurd ho id
    | nin => exact absurd ho id
  | vector l =>
    cases op with
    | in_ => exact directed_inVector hc hr order
    | neq =>
      obtain rfl : order = .asc := hneq rfl
      refine ⟨fun v hv => ?_, ?_⟩
      · have hv : v ∈ Field.doNinVector ⟨c, .neq, .vector l, .asc⟩ (sortVector .asc l) := hv
        exact order_of_mem_doNinVector hv
      · exact doNinVector_rising (f := ⟨c, .neq, .vector l, .asc⟩) hc (sortVector_sorted (.inl rfl))
    | eq => exact absurd ho id
    | gt => exact absurd ho id
    | gte => exact absurd ho id
    | lt => exact absurd ho id
    | lte => exact absurd ho id
    | nin => exact absurd ho id

/-- A condition that leaves no values out is one range, or single values. -/
theorem oneRange_of_ordinary {f : Field} (ho : OrdinaryField f) (hneq : f.op ≠ .neq) :
    OneRange f := by
  obtain ⟨c, op, value, order⟩ := f
  cases value with
  | scalar s =>
    have hvariants : Field.variants ⟨c, op, .scalar s, order⟩ = [⟨c, op, .scalar s, order⟩] :=
      if_neg hneq
    refine .inl ?_
    rw [hvariants]
    exact Nat.le_refl _
  | interval i =>
    cases op with
    | in_ => exact .inl (Nat.le_refl _)
    | _ => exact absurd ho id
  | vector l =>
    cases op with
    | in_ =>
      refine .inr fun v hv => ?_
      obtain ⟨y, -, rfl⟩ := List.mem_map.mp hv
      exact .inl rfl
    | neq => exact absurd rfl hneq
    | _ => exact absurd ho id

end IndexKeySearch

end Hatn.Db
