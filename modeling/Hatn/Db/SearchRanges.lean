import Hatn.Db.IndexKeySearch
import Hatn.Order.Prefix

/-!
# What the search iterates

A key is a row of closed parts behind the start of its topic and index.  `iterate_groups`
says what an iteration before the last field does: it takes the parts of its field that lie
in its bounds, each once and in its direction, and searches behind each.
-/

namespace Hatn.Db

open Query Search

namespace IndexKeySearch

/-- The symbols of the form of a value that is set are above the separators. -/
def Clean (w : Key) : Prop := ∀ c ∈ w, separatorCharPlus < c

theorem Clean.lt {w : Key} (h : Clean w) : ∀ c ∈ w, separatorChar < c := fun c hc =>
  lt_trans (by decide) (h c hc)

theorem Clean.ne {w : Key} (h : Clean w) : ∀ c ∈ w, c ≠ separatorChar := fun c hc =>
  (h.lt c hc).ne'

theorem separator_covBy : separatorChar ⋖ separatorCharPlus := by
  refine ⟨by decide, fun c hc hc' => ?_⟩
  rw [UInt8.lt_iff_toNat_lt] at hc hc'
  have h0 : separatorChar.toNat = 0 := rfl
  have h1 : separatorCharPlus.toNat = 1 := rfl
  omega

/-! ### Prefixes -/

theorem separatorAt_append : ∀ {w : Key}, (∀ c ∈ w, c ≠ separatorChar) → ∀ (k : Key) (n : Nat),
    separatorAt (w ++ separatorChar :: k) (n + 1) =
      if n = 0 then some w.length else (separatorAt k n).map (· + (w.length + 1)) := by
  intro w
  induction w with
  | nil =>
    intro _ k n
    rw [List.nil_append, separatorAt, if_pos rfl, List.length_nil, Nat.add_sub_cancel]
    by_cases hn : n = 0
    · rw [if_pos hn, if_pos (by omega)]
    · rw [if_neg hn, if_neg (by omega)]
  | cons c w ih =>
    intro hw k n
    rw [List.cons_append, separatorAt, if_neg (hw c List.mem_cons_self),
      ih (fun c' hc' => hw c' (List.mem_cons_of_mem c hc')), List.length_cons]
    by_cases hn : n = 0
    · rw [if_pos hn, if_pos hn]
      rfl
    · rw [if_neg hn, if_neg hn, Option.map_map]
      rfl

/-- The parts of a key, each behind a separator. -/
def parts (ws : List Key) : Key := ws.flatMap fun w => separatorChar :: w

theorem separatorAt_parts : ∀ {ws : List Key} {w : Key}, (∀ c ∈ w, c ≠ separatorChar) →
    (∀ w' ∈ ws, ∀ c ∈ w', c ≠ separatorChar) → ∀ k : Key,
      separatorAt (w ++ (parts ws ++ separatorChar :: k)) (ws.length + 1) =
        some (w.length + (parts ws).length) := by
  intro ws
  induction ws with
  | nil =>
    intro w hw _ k
    rw [parts, List.flatMap_nil, List.nil_append, separatorAt_append hw]
    rfl
  | cons w' ws ih =>
    intro w hw hws k
    have hparts : parts (w' :: ws) = separatorChar :: (w' ++ parts ws) := rfl
    rw [hparts, List.cons_append, List.append_assoc, separatorAt_append hw,
      List.length_cons, if_neg (Nat.succ_ne_zero _),
      ih (hws w' List.mem_cons_self) fun w'' h => hws w'' (List.mem_cons_of_mem w' h),
      Option.map_some, List.length_cons, List.length_append]
    congr 1
    omega

/-- The key prefix of a cursor behind `n` fields. -/
def Level (src : Source) (n : Nat) (P : Key) : Prop :=
  ∃ ws : List Key, ws.length = n ∧ (∀ w ∈ ws, Clean w) ∧ P = src.start ++ parts ws

theorem level_start (src : Source) : Level src 0 src.start :=
  ⟨[], rfl, nofun, (List.append_nil _).symm⟩

theorem Level.next {src : Source} {n : Nat} {P w : Key} (h : Level src n P) (hw : Clean w) :
    Level src (n + 1) (P ++ separatorChar :: w) := by
  obtain ⟨ws, rfl, hws, rfl⟩ := h
  refine ⟨ws ++ [w], List.length_append, fun w' hw' => ?_, ?_⟩
  · obtain hw' | hw' := List.mem_append.mp hw'
    · exact hws w' hw'
    · rwa [List.mem_singleton.mp hw']
  · rw [parts, parts, List.flatMap_append, List.flatMap_singleton, List.append_assoc]

/-- **The key prefix** of a key up to a field is the cursor's with the part of that field. -/
theorem keyPrefix_eq {src : Source} {n : Nat} {P w : Key} (h : Level src n P) (hw : Clean w)
    (r : Key) : keyPrefix (P ++ separatorChar :: (w ++ separatorChar :: r)) src.topic (n + 1) =
      P ++ separatorChar :: w := by
  obtain ⟨ws, rfl, hws, rfl⟩ := h
  -- the first part stands behind the start and a separator
  obtain ⟨w₀, ws₀, hsplit, hlen, hw₀, hws₀⟩ : ∃ (w₀ : Key) (ws₀ : List Key),
      parts ws ++ separatorChar :: w = separatorChar :: (w₀ ++ parts ws₀) ∧
        ws₀.length = ws.length ∧ Clean w₀ ∧ ∀ w' ∈ ws₀, Clean w' := by
    cases ws with
    | nil => exact ⟨w, [], by simp [parts], rfl, hw, nofun⟩
    | cons w₁ ws =>
      refine ⟨w₁, ws ++ [w], by simp [parts], by simp, hws w₁ List.mem_cons_self,
        fun w' hw' => ?_⟩
      obtain hw' | hw' := List.mem_append.mp hw'
      · exact hws w' (List.mem_cons_of_mem w₁ hw')
      · rwa [List.mem_singleton.mp hw']
  have hkey : src.start ++ parts ws ++ separatorChar :: (w ++ separatorChar :: r) =
      (src.start ++ [separatorChar]) ++ (w₀ ++ (parts ws₀ ++ separatorChar :: r)) := by
    have hcons : separatorChar :: (w ++ separatorChar :: r) =
        (separatorChar :: w) ++ separatorChar :: r := rfl
    rw [hcons, List.append_assoc, ← List.append_assoc (parts ws), hsplit]
    simp
  have hstart : (src.start ++ [separatorChar]).length = fieldsOffset + src.topic.length := by
    simp only [Source.start, fieldsOffset, List.length_append, src.indexId.size,
      List.length_cons, List.length_nil]
    omega
  rw [hkey, keyPrefix, List.drop_left' hstart, ← hlen,
    separatorAt_parts hw₀.ne fun w' hw' => (hws₀ w' hw').ne]
  have hcursor : src.start ++ parts ws ++ separatorChar :: w =
      (src.start ++ [separatorChar]) ++ (w₀ ++ parts ws₀) := by
    rw [List.append_assoc, hsplit]
    simp
  have hcut : (src.start ++ [separatorChar]) ++ (w₀ ++ (parts ws₀ ++ separatorChar :: r)) =
      ((src.start ++ [separatorChar]) ++ (w₀ ++ parts ws₀)) ++ separatorChar :: r := by
    simp
  dsimp only
  rw [hcursor, hcut]
  exact List.take_left' (by
    rw [List.length_append, hstart, List.length_append])

theorem appendPrefix_eq (P w : Key) : appendPrefix P (P ++ separatorChar :: w) =
    P ++ separatorChar :: w := by
  rw [appendPrefix, List.drop_left, if_pos (by
    rw [List.length_append, List.length_cons]
    omega)]

theorem appendPrefix_take (P p : Key) : (appendPrefix P p).take P.length = P := by
  rw [appendPrefix]
  split
  · exact List.take_left
  · exact List.take_length

/-! ### The cursor is put back -/

theorem iterate_value (src : Source) (pos : Nat) (forward exact single : Bool)
    {inner : Option (Key → Key → Key → Visits Entry Key)} (P : Key)
    (hinner : ∀ next, inner = some next → ∀ p from_ to_, (next p from_ to_).value = p) :
    ∀ (es : List Entry) (b : Bounds),
      (iterate src pos P.length forward exact single inner es b P).value = P := by
  intro es
  induction es with
  | nil => exact fun _ => rfl
  | cons e es ih =>
    intro b
    rw [iterate]
    split
    · exact ih b
    · cases inner with
      | none =>
        simp only [Visits.bind_eq, Visits.value_bind, Visits.value_call, Bool.not_true,
          Bool.false_eq_true, if_false, Visits.pure_eq, appendPrefix_take]
        cases single with
        | true => rfl
        | false => exact ih b
      | some next =>
        simp only [Visits.bind_eq, Visits.value_bind, hinner next rfl, Visits.pure_eq,
          appendPrefix_take]
        cases exact with
        | true => rfl
        | false =>
          simp only [Bool.false_eq_true, if_false]
          split
          · rfl
          · split
            · exact ih _
            · exact ih b

/-- The search behind the field at `pos`, where there are fields left. -/
def behind (src : Source) (pos : Nat) : List Field → Option (Key → Key → Key → Visits Entry Key)
  | [] => none
  | f :: fs => some (nextKeyField src (pos + 1) (f :: fs))

theorem nextKeyField_cons (src : Source) (pos : Nat) (f : Field) (fs : List Field)
    (P prevFrom prevTo : Key) : nextKeyField src pos (f :: fs) P prevFrom prevTo =
      f.variants.foldlM (fun prefix_ v =>
        iterateFieldVariant src pos (behind src pos fs) v prevFrom prevTo prefix_) P := by
  cases fs <;> rfl

/-- **The cursor is put back** when the search is always told to go on. -/
theorem nextKeyField_value (src : Source) : ∀ (fs : List Field) (pos : Nat)
    (P prevFrom prevTo : Key), (nextKeyField src pos fs P prevFrom prevTo).value = P := by
  intro fs
  induction fs with
  | nil => exact fun _ _ _ _ => rfl
  | cons f fs ih =>
    intro pos P prevFrom prevTo
    rw [nextKeyField_cons]
    have hvariants : ∀ (vs : List Field) (P : Key) (inner : Option _),
        (∀ next, inner = some next → ∀ p from_ to_, (next p from_ to_).value = p) →
        (vs.foldlM (fun prefix_ v =>
          iterateFieldVariant src pos inner v prevFrom prevTo prefix_) P).value = P := by
      intro vs
      induction vs with
      | nil => exact fun _ _ _ => rfl
      | cons v vs ihv =>
        intro P inner hinner
        rw [List.foldlM_cons, Visits.bind_eq, Visits.value_bind, iterateFieldVariant,
          iterate_value src pos _ _ _ P hinner]
        exact ihv P inner hinner
    refine hvariants _ P _ fun next hnext => ?_
    cases fs with
    | nil => cases hnext
    | cons f' fs =>
      cases hnext
      exact ih (pos + 1)

theorem foldlM_all {src : Source} {pos : Nat}
    {inner : Option (Key → Key → Key → Visits Entry Key)} {prevFrom prevTo : Key}
    (hinner : ∀ next, inner = some next → ∀ p from_ to_, (next p from_ to_).value = p) (P : Key) :
    ∀ vs : List Field, (vs.foldlM (fun prefix_ v =>
      iterateFieldVariant src pos inner v prevFrom prevTo prefix_) P).all =
        vs.flatMap fun v => (iterateFieldVariant src pos inner v prevFrom prevTo P).all := by
  intro vs
  induction vs with
  | nil => rfl
  | cons v vs ih =>
    have hvalue : (iterateFieldVariant src pos inner v prevFrom prevTo P).value = P := by
      rw [iterateFieldVariant]
      exact iterate_value src pos _ _ _ P hinner _ _
    rw [List.foldlM_cons, Visits.bind_eq, Visits.all_bind, hvalue, ih, List.flatMap_cons]

theorem behind_value {src : Source} {pos : Nat} {fs : List Field}
    {next : Key → Key → Key → Visits Entry Key} (h : behind src pos fs = some next)
    (p from_ to_ : Key) :
    (next p from_ to_).value = p := by
  cases fs with
  | nil => cases h
  | cons f fs =>
    cases h
    exact nextKeyField_value src (f :: fs) (pos + 1) p from_ to_

/-- The variants of a condition are searched one after the other. -/
theorem nextKeyField_all (src : Source) (pos : Nat) (f : Field) (fs : List Field)
    (P prevFrom prevTo : Key) : (nextKeyField src pos (f :: fs) P prevFrom prevTo).all =
      f.variants.flatMap fun v =>
        (iterateFieldVariant src pos (behind src pos fs) v prevFrom prevTo P).all := by
  rw [nextKeyField_cons]
  exact foldlM_all (fun _ hnext => behind_value hnext) P f.variants

/-! ### Parts in the order of the iteration -/

/-- The order in which keys are met. -/
def Before (forward : Bool) (k k' : Key) : Prop := if forward then k < k' else k' < k

/-- The part of the entry behind the key prefix `P`. -/
def Part (P w : Key) (e : Entry) : Prop :=
  Clean w ∧ ∃ r, e.key = P ++ separatorChar :: (w ++ separatorChar :: r)

theorem Part.unique {P w w' : Key} {e : Entry} (h : Part P w e) (h' : Part P w' e) : w = w' := by
  obtain ⟨hw, r, hr⟩ := h
  obtain ⟨hw', r', hr'⟩ := h'
  have heq := List.append_cancel_left (hr.symm.trans hr')
  exact (Order.terminated_inj hw.lt hw'.lt (List.cons.inj heq).2).1

theorem Part.le {P w w' : Key} {e e' : Entry} (h : Part P w e) (h' : Part P w' e')
    (hlt : e.key < e'.key) : w ≤ w' := by
  obtain ⟨hw, r, hr⟩ := h
  obtain ⟨hw', r', hr'⟩ := h'
  rw [hr, hr', Order.append_left_lt, List.cons_lt_cons_iff] at hlt
  have hlt := (hlt.resolve_left (lt_irrefl _)).2
  rw [Order.terminated_lt_terminated hw.lt hw'.lt] at hlt
  exact hlt.elim le_of_lt fun h => h.1.le

/-- Parts are met in their order. -/
theorem Part.before {P w w' : Key} {e e' : Entry} {forward : Bool} (h : Part P w e)
    (h' : Part P w' e') (hb : Before forward e.key e'.key) (hne : w ≠ w') :
    Before forward w w' := by
  cases forward with
  | true => exact lt_of_le_of_ne (h.le h' hb) hne
  | false => exact lt_of_le_of_ne (h'.le h hb) hne.symm

/-- An entry between two of one part has that part as well. -/
theorem Part.between {P w w' : Key} {e e' e'' : Entry} {forward : Bool} (h : Part P w e)
    (h' : Part P w' e') (h'' : Part P w e'') (hb : Before forward e.key e'.key)
    (hb' : Before forward e'.key e''.key) : w' = w := by
  cases forward with
  | true => exact le_antisymm (h'.le h'' hb') (h.le h' hb)
  | false => exact le_antisymm (h'.le h hb) (h''.le h' hb')

theorem contains_iff {b : Bounds} {e : Entry} :
    b.contains e = true ↔ b.lower ≤ e.key ∧ e.key < b.upper := by
  rw [Bounds.contains, Bool.decide_and, Bool.and_eq_true, decide_eq_true_eq, decide_eq_true_eq]

/-- A seek behind the part of an entry leaves the entries of other parts behind it. -/
theorem contains_seekBehind {P w w' : Key} {e e' : Entry} {b : Bounds} {forward : Bool}
    (h : Part P w e) (h' : Part P w' e') (hb : Before forward e.key e'.key)
    (he : b.contains e = true) :
    (b.seekBehind forward (P ++ separatorChar :: w)).contains e' = true ↔
      b.contains e' = true ∧ w' ≠ w := by
  obtain ⟨hlo, hhi⟩ := contains_iff.mp he
  have hle := fun hlt => h.le h' hlt
  have hge := fun hlt => h'.le h hlt
  obtain ⟨hw, r, hr⟩ := h
  obtain ⟨hw', r', hr'⟩ := h'
  have hcons : ∀ c : UInt8, P ++ separatorChar :: w ++ [c] =
      (P ++ [separatorChar]) ++ (w ++ [c]) := fun c => by simp
  have hkey : e'.key = (P ++ [separatorChar]) ++ (w' ++ separatorChar :: r') := by
    rw [hr']
    simp
  rw [contains_iff, contains_iff]
  cases forward with
  | true =>
    have hlower : P ++ separatorChar :: w ++ [separatorCharPlus] ≤ e'.key ↔ w < w' := by
      rw [hcons, hkey, Order.upper_le_part (by decide) hw' hw]
    show P ++ separatorChar :: w ++ [separatorCharPlus] ≤ e'.key ∧ e'.key < b.upper ↔ _
    rw [hlower]
    have hlt : e.key < e'.key := hb
    constructor
    · exact fun h => ⟨⟨hlo.trans hlt.le, h.2⟩, h.1.ne'⟩
    · exact fun h => ⟨lt_of_le_of_ne (hle hlt) h.2.symm, h.1.2⟩
  | false =>
    have hupper : e'.key < P ++ separatorChar :: w ++ [separatorChar] ↔ w' < w := by
      rw [hcons, hkey, Order.part_lt_lower hw'.lt hw.lt]
    show b.lower ≤ e'.key ∧ e'.key < P ++ separatorChar :: w ++ [separatorChar] ↔ _
    rw [hupper]
    have hlt : e'.key < e.key := hb
    constructor
    · exact fun h => ⟨⟨h.1, hlt.trans hhi⟩, h.2.ne⟩
    · exact fun h => ⟨h.1.1, lt_of_le_of_ne (hge hlt) h.2⟩

theorem contains_of_seekBehind {e e' : Entry} {b : Bounds} {forward : Bool} {prefix_ : Key}
    (hb : Before forward e.key e'.key) (he : b.contains e = true)
    (h : (b.seekBehind forward prefix_).contains e' = true) : b.contains e' = true := by
  rw [contains_iff] at he h ⊢
  cases forward with
  | true => exact ⟨he.1.trans (le_of_lt hb), h.2⟩
  | false => exact ⟨h.1, lt_trans hb he.2⟩

/-- **An iteration before the last field** takes the parts that an entry in its bounds has which is
not passed over, each once and in its direction, and searches behind each. -/
theorem iterate_groups {src : Source} {n : Nat} {P : Key} (hP : Level src n P)
    {forward exact single : Bool} {next : Key → Key → Key → Visits Entry Key} {I : Key → List Entry}
    (hvalue : ∀ p from_ to_, (next p from_ to_).value = p) :
    ∀ (es : List Entry) (b : Bounds), es.Pairwise (fun e e' => Before forward e.key e'.key) →
      (∀ e ∈ es, b.contains e = true → ∃ w, Part P w e) →
      (∀ w from_ to_, (exact = true → from_ = b.from_ ∧ to_ = b.to_) →
        (next (P ++ separatorChar :: w) from_ to_).all = I w) →
      (exact = true → ∃ x, ∀ e ∈ es, b.contains e = true → Part P x e) →
      ∃ ws : List Key, ws.Pairwise (Before forward) ∧
        (iterate src (n + 1) P.length forward exact single (some next) es b P).all =
          ws.flatMap I ∧
        ∀ w, w ∈ ws ↔ ∃ e ∈ es, b.contains e = true ∧ src.isFiltered (n + 1) e = false ∧
          Part P w e := by
  intro es
  induction es with
  | nil =>
    exact fun b _ _ _ _ => ⟨[], .nil, rfl, fun w => by simp⟩
  | cons e es ih =>
    intro b hsorted hparts hI hexact
    obtain ⟨hbefore, hsorted⟩ := List.pairwise_cons.mp hsorted
    have hparts' : ∀ e' ∈ es, b.contains e' = true → ∃ w, Part P w e' :=
      fun e' he' => hparts e' (List.mem_cons_of_mem e he')
    rw [iterate]
    by_cases hin : b.contains e = true ∧ src.isFiltered (n + 1) e = false
    swap
    · -- the entry is out of bounds, or passed over
      obtain ⟨ws, hws, hall, hmem⟩ := ih b hsorted hparts' hI fun hex =>
        (hexact hex).imp fun x hx e' he' => hx e' (List.mem_cons_of_mem e he')
      refine ⟨ws, hws, ?_, fun w => ?_⟩
      · have hpass : (!b.contains e || src.isFiltered (n + 1) e) = true := by
          revert hin
          cases b.contains e <;> cases src.isFiltered (n + 1) e <;> decide
        rw [if_pos hpass]
        exact hall
      · rw [hmem w]
        constructor
        · rintro ⟨e', he', h⟩
          exact ⟨e', List.mem_cons_of_mem e he', h⟩
        · rintro ⟨e', he', hb', hfiltered, h⟩
          obtain rfl | he' := List.mem_cons.mp he'
          · exact absurd ⟨hb', hfiltered⟩ hin
          · exact ⟨e', he', hb', hfiltered, h⟩
    obtain ⟨hb, hfiltered⟩ := hin
    obtain ⟨w, hw⟩ := hparts e List.mem_cons_self hb
    have hfront : keyPrefix e.key src.topic (n + 1) = P ++ separatorChar :: w := by
      obtain ⟨hclean, r, hr⟩ := hw
      rw [hr, keyPrefix_eq hP hclean]
    have hfirst : (next (P ++ separatorChar :: w) b.from_ b.to_).all = I w :=
      hI w _ _ fun _ => ⟨rfl, rfl⟩
    -- what is left is searched with bounds that hold the entries of other parts
    have hrest : ∀ b' : Bounds, (∀ e' ∈ es, ∀ w', Part P w' e' →
          (b'.contains e' = true ↔ b.contains e' = true ∧ w' ≠ w)) →
        (∀ e' ∈ es, b'.contains e' = true → b.contains e' = true) →
        exact = false → ∃ ws : List Key, (w :: ws).Pairwise (Before forward) ∧
          I w ++ (iterate src (n + 1) P.length forward exact single (some next) es b' P).all =
            (w :: ws).flatMap I ∧
          ∀ w', w' ∈ w :: ws ↔ ∃ e' ∈ e :: es, b.contains e' = true ∧
            src.isFiltered (n + 1) e' = false ∧ Part P w' e' := by
      intro b' hb' hsub hex
      obtain ⟨ws, hws, hall, hmem⟩ := ih b' hsorted (fun e' he' h => hparts' e' he' (hsub e' he' h))
        (fun w from_ to_ _ => hI w from_ to_ fun h => by rw [hex] at h; cases h)
        (fun h => by rw [hex] at h; cases h)
      have hne : ∀ w' ∈ ws, ∃ e' ∈ es, b.contains e' = true ∧
          src.isFiltered (n + 1) e' = false ∧ Part P w' e' ∧ w' ≠ w := by
        intro w' hw'
        obtain ⟨e', he', hb'', hfiltered', hp⟩ := (hmem w').mp hw'
        obtain ⟨hb'', hne⟩ := (hb' e' he' w' hp).mp hb''
        exact ⟨e', he', hb'', hfiltered', hp, hne⟩
      refine ⟨ws, List.pairwise_cons.mpr ⟨fun w' hw' => ?_, hws⟩, by rw [hall]; rfl, fun w' => ?_⟩
      · obtain ⟨e', he', -, -, hp, hne⟩ := hne w' hw'
        exact hw.before hp (hbefore e' he') hne.symm
      · rw [List.mem_cons]
        constructor
        · rintro (rfl | hw')
          · exact ⟨e, List.mem_cons_self, hb, hfiltered, hw⟩
          · obtain ⟨e', he', hb'', hfiltered', hp, -⟩ := hne w' hw'
            exact ⟨e', List.mem_cons_of_mem e he', hb'', hfiltered', hp⟩
        · rintro ⟨e', he', hb'', hfiltered', hp⟩
          obtain rfl | he' := List.mem_cons.mp he'
          · exact .inl (hp.unique hw)
          · by_cases heq : w' = w
            · exact .inl heq
            · exact .inr ((hmem w').mpr
              ⟨e', he', (hb' e' he' w' hp).mpr ⟨hb'', heq⟩, hfiltered', hp⟩)
    rw [if_neg (by rw [hb, hfiltered]; decide), hfront]
    simp only [appendPrefix_eq, Visits.bind_eq, Visits.all_bind, hvalue, hfirst, Visits.pure_eq,
      List.take_left]
    by_cases hex : exact = true
    · obtain ⟨x, hx⟩ := hexact hex
      rw [if_pos hex]
      refine ⟨[w], List.pairwise_singleton _ _, ?_, fun w' => ?_⟩
      · simp [Visits.all]
      · rw [List.mem_singleton]
        constructor
        · rintro rfl
          exact ⟨e, List.mem_cons_self, hb, hfiltered, hw⟩
        · rintro ⟨e', he', hb', -, hp⟩
          rw [hp.unique (hx e' he' hb'), hw.unique (hx e List.mem_cons_self hb)]
    · rw [if_neg hex]
      replace hex := Bool.eq_false_iff.mpr hex
      cases hfind : es.find? b.contains with
      | none =>
        have hnone : ∀ e' ∈ es, ¬ b.contains e' = true := List.find?_eq_none.mp hfind
        refine ⟨[w], List.pairwise_singleton _ _, ?_, fun w' => ?_⟩
        · simp [Visits.all]
        · rw [List.mem_singleton]
          constructor
          · rintro rfl
            exact ⟨e, List.mem_cons_self, hb, hfiltered, hw⟩
          · rintro ⟨e', he', hb', -, hp⟩
            obtain rfl | he' := List.mem_cons.mp he'
            · exact hp.unique hw
            · exact absurd hb' (hnone e' he')
      | some e' =>
        have he' : e' ∈ es := List.mem_of_find?_eq_some hfind
        have hb' : b.contains e' = true := List.find?_some hfind
        obtain ⟨w', hp'⟩ := hparts' e' he' hb'
        have hfront' : keyPrefix e'.key src.topic (n + 1) = P ++ separatorChar :: w' := by
          obtain ⟨hclean, r, hr⟩ := hp'
          rw [hr, keyPrefix_eq hP hclean]
        dsimp only
        rw [hfront']
        by_cases heq : w' = w
        · -- the part repeats, so a seek goes behind it
          rw [heq, if_pos rfl]
          obtain ⟨ws, hws, hall, hmem⟩ := hrest (b.seekBehind forward (P ++ separatorChar :: w))
            (fun e'' he'' w'' hp'' => contains_seekBehind hw hp'' (hbefore e'' he'') hb)
            (fun e'' he'' hb'' => contains_of_seekBehind (hbefore e'' he'') hb hb'') hex
          exact ⟨w :: ws, hws, hall, hmem⟩
        · -- the next part is another one, and so are all behind it
          rw [if_neg fun h => heq (List.cons.inj (List.append_cancel_left h)).2]
          obtain ⟨before, after, rfl, hbefore'⟩ := (List.find?_eq_some_iff_append.mp hfind).2
          have hsorted' := (List.pairwise_append.mp hsorted).2.1
          have hother : ∀ e'' ∈ before ++ e' :: after, ∀ w'', Part P w'' e'' →
              b.contains e'' = true → w'' ≠ w := by
            rintro e'' he'' w'' hp'' hb'' rfl
            obtain he'' | he'' := List.mem_append.mp he''
            · exact absurd hb'' (by simpa using hbefore' e'' he'')
            obtain rfl | he'' := List.mem_cons.mp he''
            · exact heq (hp'.unique hp'')
            · exact heq (hw.between hp' hp'' (hbefore e' he')
                ((List.pairwise_cons.mp hsorted').1 e'' he''))
          obtain ⟨ws, hws, hall, hmem⟩ := hrest b (fun e'' he'' w'' hp'' =>
            ⟨fun hb'' => ⟨hb'', hother e'' he'' w'' hp'' hb''⟩, fun h => h.1⟩)
            (fun _ _ hb'' => hb'') hex
          exact ⟨w :: ws, hws, hall, hmem⟩

/-- **An iteration of the last field** calls back for all entries in its bounds. -/
theorem iterate_last (src : Source) (pos : Nat) (forward exact : Bool) (P : Key) (b : Bounds) :
    ∀ es : List Entry, (iterate src pos P.length forward exact false none es b P).all =
      es.filter fun e => b.contains e && !src.isFiltered pos e := by
  intro es
  induction es with
  | nil => rfl
  | cons e es ih =>
    rw [iterate, List.filter_cons]
    by_cases h : (!b.contains e || src.isFiltered pos e) = true
    · have hnot : ¬ (b.contains e && !src.isFiltered pos e) = true := by
        revert h
        cases b.contains e <;> cases src.isFiltered pos e <;> decide
      rw [if_pos h, if_neg hnot, ih]
    · have hin : (b.contains e && !src.isFiltered pos e) = true := by
        revert h
        cases b.contains e <;> cases src.isFiltered pos e <;> decide
      rw [if_neg h, if_pos hin]
      simp only [Visits.bind_eq, Visits.all_bind, Visits.all_call, Visits.value_call, Bool.not_true,
        Bool.false_eq_true, if_false, appendPrefix_take, ih, List.singleton_append]

/-! ### Bounds -/

/-- The form of a scalar; null has none. -/
def scalarForm {α : Type} (form : α → Key) : Scalar α → Key
  | .value v => form v
  | _ => []

/-- A single range: the part of a key satisfies the condition as a form. -/
def Sat (v : Field) (w : Key) : Prop :=
  match v.op, v.value with
  | .eq, .scalar s => w = scalarForm v.column.form s
  | .gt, .scalar s => scalarForm v.column.form s < w
  | .gte, .scalar s => scalarForm v.column.form s ≤ w
  | .lt, .scalar s => w < scalarForm v.column.form s
  | .lte, .scalar s => w ≤ scalarForm v.column.form s
  | .in_, .interval i =>
    (if i.from_.type = .open_ then v.column.form i.from_.value < w
      else v.column.form i.from_.value ≤ w) ∧
    (if i.to_.type = .open_ then w < v.column.form i.to_.value
      else w ≤ v.column.form i.to_.value)
  | _, _ => False

/-- A scalar operand that is neither the first nor the last. -/
def PlainScalar {α : Type} (form : α → Key) : Scalar α → Prop
  | .value v => Clean (form v)
  | .null => True
  | _ => False

/-- An endpoint with a value. -/
def PlainEndpoint {α : Type} (form : α → Key) (e : Endpoint α) : Prop :=
  Clean (form e.value) ∧ (e.type = .closed ∨ e.type = .open_)

/-- A condition that is one range of values. -/
def PlainRange (v : Field) : Prop :=
  match v.op, v.value with
  | .in_, .interval i => PlainEndpoint v.column.form i.from_ ∧ PlainEndpoint v.column.form i.to_
  | .eq, .scalar s | .gt, .scalar s | .gte, .scalar s | .lt, .scalar s | .lte, .scalar s =>
    PlainScalar v.column.form s
  | _, _ => False

/-- The range has bounds of its own on both sides. -/
def TwoSided (v : Field) : Prop := v.op = .eq ∨ v.op = .in_

theorem PlainScalar.clean {α : Type} {form : α → Key} {s : Scalar α} (h : PlainScalar form s) :
    Clean (scalarForm form s) := by
  cases s with
  | value v => exact h
  | null => exact nofun
  | first => exact absurd h id
  | last => exact absurd h id

theorem scalarToBuf_eq {α : Type} {form : α → Key} {s : Scalar α} (h : PlainScalar form s)
    (P : Key) (sep : UInt8) : scalarToBuf form (P ++ [separatorChar]) s sep =
      (P ++ [separatorChar]) ++ (scalarForm form s ++ [sep]) := by
  cases s with
  | value v => exact List.append_assoc ..
  | null => rfl
  | first => exact absurd h id
  | last => exact absurd h id

/-- What the bounds of a range are for. -/
structure Cuts (P : Key) (b : Bounds) (v : Field) : Prop where
  contains : ∀ {e : Entry} {w : Key}, w ≠ [] → Part P w e → (b.contains e = true ↔ Sat v w)
  level : ∀ {e : Entry}, b.contains e = true → P ++ [separatorChar] <+: e.key

/-- The bounds of a range behind the key prefix `P` and a separator, `P₀`. -/
def rangeBounds (v : Field) (P₀ prevFrom prevTo : Key) : Bounds :=
  match v.op, v.value with
  | .eq, .scalar s => .range (P₀ ++ (scalarForm v.column.form s ++ [separatorChar]))
      (P₀ ++ (scalarForm v.column.form s ++ [separatorCharPlus]))
  | .gt, .scalar s => .range (P₀ ++ (scalarForm v.column.form s ++ [separatorCharPlus])) prevTo
  | .gte, .scalar s => .range (P₀ ++ (scalarForm v.column.form s ++ [separatorChar])) prevTo
  | .lt, .scalar s =>
    let to_ := P₀ ++ (scalarForm v.column.form s ++ [separatorChar])
    ⟨prevFrom, to_, prevFrom ++ [separatorCharPlus], to_⟩
  | .lte, .scalar s =>
    let to_ := P₀ ++ (scalarForm v.column.form s ++ [separatorCharPlus])
    ⟨prevFrom, to_, prevFrom ++ [separatorCharPlus], to_⟩
  | .in_, .interval i =>
    .range (P₀ ++ (v.column.form i.from_.value ++
        [if i.from_.type = .open_ then separatorCharPlus else separatorChar]))
      (P₀ ++ (v.column.form i.to_.value ++
        [if i.to_.type = .open_ then separatorChar else separatorCharPlus]))
  | _, _ => .range [] []

theorem fromToBuf_eq {α : Type} {form : α → Key} {i : Query.Interval α}
    (h : PlainEndpoint form i.from_)
    (P₀ : Key) (sep : UInt8) :
    fromToBuf form P₀ i sep = P₀ ++ (form i.from_.value ++ [sep]) := by
  rw [fromToBuf]
  obtain ht | ht := h.2 <;> (rw [ht]; exact List.append_assoc ..)

theorem toToBuf_eq {α : Type} {form : α → Key} {i : Query.Interval α} (h : PlainEndpoint form i.to_)
    (P₀ : Key) (sep : UInt8) : toToBuf form P₀ i sep = P₀ ++ (form i.to_.value ++ [sep]) := by
  rw [toToBuf]
  obtain ht | ht := h.2 <;> (rw [ht]; exact List.append_assoc ..)

/-- The plan of a range. -/
theorem plan_eq {v : Field} (h : PlainRange v) (P prevFrom prevTo : Key) :
    plan v P prevFrom prevTo = ⟨rangeBounds v (P ++ [separatorChar]) prevFrom prevTo,
      v.order = .asc, v.op = .eq, false⟩ := by
  obtain ⟨c, op, value, order⟩ := v
  have hscalar : ∀ {s : Scalar c.Value}, PlainScalar c.form s → ∀ (op : Operator) (sep : UInt8),
      fieldValueToBuf (P ++ [separatorChar]) ⟨c, op, .scalar s, order⟩ sep =
        (P ++ [separatorChar]) ++ (scalarForm c.form s ++ [sep]) :=
    fun hs _ sep => scalarToBuf_eq hs P sep
  have hfirst : ∀ {s : Scalar c.Value}, PlainScalar c.form s → ∀ op : Operator,
      isFirst ⟨c, op, .scalar s, order⟩ = false ∧ isLast ⟨c, op, .scalar s, order⟩ = false := by
    intro s hs op
    cases s with
    | value v => exact ⟨rfl, rfl⟩
    | null => exact ⟨rfl, rfl⟩
    | first => exact absurd hs id
    | last => exact absurd hs id
  cases op with
  | neq => exact absurd h (by cases value <;> exact id)
  | nin => exact absurd h (by cases value <;> exact id)
  | eq =>
    cases value with
    | scalar s =>
      simp only [plan, rangeBounds, hscalar h, (hfirst h .eq).1, (hfirst h .eq).2,
        Bool.false_eq_true, or_self, if_false, decide_true]
    | interval i => exact absurd h id
    | vector l => exact absurd h id
  | gt =>
    cases value with
    | scalar s => simp only [plan, rangeBounds, hscalar h]; rfl
    | interval i => exact absurd h id
    | vector l => exact absurd h id
  | gte =>
    cases value with
    | scalar s =>
      simp only [plan, rangeBounds, hscalar h, (hfirst h .gte).1, Bool.false_eq_true, if_false]
      rfl
    | interval i => exact absurd h id
    | vector l => exact absurd h id
  | lt =>
    cases value with
    | scalar s => simp only [plan, rangeBounds, hscalar h]; rfl
    | interval i => exact absurd h id
    | vector l => exact absurd h id
  | lte =>
    cases value with
    | scalar s =>
      simp only [plan, rangeBounds, hscalar h, (hfirst h .lte).2, Bool.false_eq_true, if_false]
      rfl
    | interval i => exact absurd h id
    | vector l => exact absurd h id
  | in_ =>
    cases value with
    | scalar s => exact absurd h id
    | vector l => exact absurd h id
    | interval i =>
      obtain ⟨hfrom, hto⟩ := h
      have honly : ∀ type, type ≠ .closed → type ≠ .open_ →
          isOnly ⟨c, .in_, .interval i, order⟩ type = false := by
        intro type hc ho
        rw [isOnly, decide_eq_false_iff_not]
        rintro ⟨ht, -⟩
        obtain hf | hf := hfrom.2
        · exact hc (ht.symm.trans hf)
        · exact ho (ht.symm.trans hf)
      have hsep : toSeparator ⟨c, .in_, .interval i, order⟩ =
          if i.to_.type = .open_ then separatorChar else separatorCharPlus := by
        rw [toSeparator]
        dsimp only
        obtain ht | ht := hto.2 <;> (rw [ht]; rfl)
      simp only [plan, rangeBounds, honly .first nofun nofun, honly .last nofun nofun,
        Bool.false_eq_true, or_self, if_false, hsep, fieldValueToBuf, toValueToBuf,
        fromToBuf_eq hfrom, toToBuf_eq hto, fromSeparator]
      rfl

section
variable {P : Key} {e : Entry} {w x : Key}

theorem Part.key_eq (h : Part P w e) : ∃ r, e.key =
    (P ++ [separatorChar]) ++ (w ++ separatorChar :: r) := by
  obtain ⟨-, r, hr⟩ := h
  exact ⟨r, by rw [hr]; simp⟩

theorem Part.lower_le (h : Part P w e) (hx : Clean x) :
    (P ++ [separatorChar]) ++ (x ++ [separatorChar]) ≤ e.key ↔ x ≤ w := by
  obtain ⟨r, hr⟩ := h.key_eq
  rw [hr, Order.lower_le_part h.1.lt hx.lt]

theorem Part.upper_le (h : Part P w e) (hx : Clean x) :
    (P ++ [separatorChar]) ++ (x ++ [separatorCharPlus]) ≤ e.key ↔ x < w := by
  obtain ⟨r, hr⟩ := h.key_eq
  rw [hr, Order.upper_le_part (by decide) h.1 hx]

theorem Part.lt_lower (h : Part P w e) (hx : Clean x) :
    e.key < (P ++ [separatorChar]) ++ (x ++ [separatorChar]) ↔ w < x := by
  rw [← not_le, h.lower_le hx, not_le]

theorem Part.lt_upper (h : Part P w e) (hx : Clean x) :
    e.key < (P ++ [separatorChar]) ++ (x ++ [separatorCharPlus]) ↔ w ≤ x := by
  rw [← not_le, h.upper_le hx, not_lt]

/-- The entry is in the level. -/
theorem Part.level (h : Part P w e) : P ++ [separatorChar] ≤ e.key ∧
    e.key < P ++ [separatorCharPlus] := by
  obtain ⟨r, hr⟩ := h.key_eq
  exact (Order.between_iff separator_covBy).mpr ⟨_, hr.symm⟩

end

theorem level_of_le {P x y : Key} {e : Entry} (hlo : P ++ [separatorChar] ++ x ≤ e.key)
    (hhi : e.key < P ++ [separatorChar] ++ y) : P ++ [separatorChar] <+: e.key := by
  refine (Order.between_iff separator_covBy).mp ⟨(Order.prefix_le ⟨x, rfl⟩).trans hlo, ?_⟩
  exact hhi.trans (Order.lt_of_prefix separator_covBy.lt ⟨y, rfl⟩)

theorem level_of_lt {P x : Key} {e : Entry} (hlo : P ++ [separatorChar] ++ x ≤ e.key)
    (hhi : e.key < P ++ [separatorCharPlus]) : P ++ [separatorChar] <+: e.key :=
  (Order.between_iff separator_covBy).mp ⟨(Order.prefix_le ⟨x, rfl⟩).trans hlo, hhi⟩

theorem nil_lt {w : Key} (h : w ≠ []) : [] < w :=
  lt_of_le_of_ne (not_lt.mp (List.not_lt_nil w)) h.symm

/-- **The bounds of a range cut out its values**, where those before it are that of the
level or do not matter. -/
theorem rangeBounds_cuts {v : Field} (h : PlainRange v) {P prevFrom prevTo : Key}
    (hprev : TwoSided v ∨ prevFrom = P ++ [separatorChar] ∧ prevTo = P ++ [separatorCharPlus]) :
    Cuts P (rangeBounds v (P ++ [separatorChar]) prevFrom prevTo) v := by
  obtain ⟨c, op, value, order⟩ := v
  cases op with
  | neq => exact absurd h (by cases value <;> exact id)
  | nin => exact absurd h (by cases value <;> exact id)
  | eq =>
    cases value with
    | scalar s =>
      have hs : PlainScalar c.form s := h
      refine ⟨fun _ hw => contains_iff.trans ?_, fun he => ?_⟩
      · refine (and_congr (hw.lower_le hs.clean) (hw.lt_upper hs.clean)).trans ?_
        exact ⟨fun hle => le_antisymm hle.2 hle.1, fun heq => ⟨heq.ge, heq.le⟩⟩
      · obtain ⟨hlo, hhi⟩ := contains_iff.mp he
        exact level_of_le hlo hhi
    | interval i => exact absurd h id
    | vector l => exact absurd h id
  | gt =>
    cases value with
    | scalar s =>
      have hs : PlainScalar c.form s := h
      obtain ⟨rfl, rfl⟩ := hprev.resolve_left (by rintro (h | h) <;> cases h)
      refine ⟨fun _ hw => contains_iff.trans ?_, fun he => ?_⟩
      · exact (and_iff_left hw.level.2).trans (hw.upper_le hs.clean)
      · obtain ⟨hlo, hhi⟩ := contains_iff.mp he
        exact level_of_lt hlo hhi
    | interval i => exact absurd h id
    | vector l => exact absurd h id
  | gte =>
    cases value with
    | scalar s =>
      have hs : PlainScalar c.form s := h
      obtain ⟨rfl, rfl⟩ := hprev.resolve_left (by rintro (h | h) <;> cases h)
      refine ⟨fun _ hw => contains_iff.trans ?_, fun he => ?_⟩
      · exact (and_iff_left hw.level.2).trans (hw.lower_le hs.clean)
      · obtain ⟨hlo, hhi⟩ := contains_iff.mp he
        exact level_of_lt hlo hhi
    | interval i => exact absurd h id
    | vector l => exact absurd h id
  | lt =>
    cases value with
    | scalar s =>
      have hs : PlainScalar c.form s := h
      obtain ⟨rfl, rfl⟩ := hprev.resolve_left (by rintro (h | h) <;> cases h)
      refine ⟨fun hne hw => contains_iff.trans ?_, fun he => ?_⟩
      · have hnull : P ++ [separatorChar] ++ [separatorCharPlus] ≤ _ ↔ [] < _ :=
          hw.upper_le (x := []) nofun
        exact (and_iff_right (hnull.mpr (nil_lt hne))).trans (hw.lt_lower hs.clean)
      · obtain ⟨hlo, hhi⟩ := contains_iff.mp he
        exact level_of_le hlo hhi
    | interval i => exact absurd h id
    | vector l => exact absurd h id
  | lte =>
    cases value with
    | scalar s =>
      have hs : PlainScalar c.form s := h
      obtain ⟨rfl, rfl⟩ := hprev.resolve_left (by rintro (h | h) <;> cases h)
      refine ⟨fun hne hw => contains_iff.trans ?_, fun he => ?_⟩
      · have hnull : P ++ [separatorChar] ++ [separatorCharPlus] ≤ _ ↔ [] < _ :=
          hw.upper_le (x := []) nofun
        exact (and_iff_right (hnull.mpr (nil_lt hne))).trans (hw.lt_upper hs.clean)
      · obtain ⟨hlo, hhi⟩ := contains_iff.mp he
        exact level_of_le hlo hhi
    | interval i => exact absurd h id
    | vector l => exact absurd h id
  | in_ =>
    cases value with
    | scalar s => exact absurd h id
    | vector l => exact absurd h id
    | interval i =>
      obtain ⟨hfrom, hto⟩ := h
      refine ⟨fun _ hw => contains_iff.trans (and_congr ?_ ?_), fun he => ?_⟩
      · show _ ++ (_ ++ [if _ then _ else _]) ≤ _ ↔ if _ then _ else _
        by_cases ho : i.from_.type = .open_
        · rw [if_pos ho, if_pos ho]
          exact hw.upper_le hfrom.1
        · rw [if_neg ho, if_neg ho]
          exact hw.lower_le hfrom.1
      · show _ < _ ++ (_ ++ [if _ then _ else _]) ↔ if _ then _ else _
        by_cases ho : i.to_.type = .open_
        · rw [if_pos ho, if_pos ho]
          exact hw.lt_lower hto.1
        · rw [if_neg ho, if_neg ho]
          exact hw.lt_upper hto.1
      · obtain ⟨hlo, hhi⟩ := contains_iff.mp he
        exact level_of_le hlo hhi

end IndexKeySearch

end Hatn.Db
