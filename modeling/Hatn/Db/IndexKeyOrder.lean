import Hatn.Db.QueryMatches
import Hatn.Db.SearchOrder

/-!
# The order of index keys

`IndexKeyCompare` puts keys that it tells apart pairwise in a strict order.  For entries of
one topic it is the order in which the search meets their parts, `less_of_precedes`.
-/

namespace Hatn.Db

open Query Search IndexKeySearch

/-! ### The comparison of parts -/

namespace IndexKey

theorem compareParts_cons {full : Bool} {f : Field} {fs : List Field} {l r : Key} {ls rs : List Key} :
    compareParts full (f :: fs) (l :: ls) (r :: rs) = true ↔
      l = r ∧ compareParts full fs ls rs = true ∨ Before (f.order = .asc) l r := by
  rw [compareParts]
  by_cases heq : l = r
  · rw [if_pos heq, heq]
    exact ⟨fun h => .inl ⟨rfl, h⟩, fun h => h.elim And.right fun hb => absurd rfl hb.ne⟩
  · rw [if_neg heq]
    refine Iff.trans (b := Before (f.order = .asc) l r) ?_
      ⟨.inr, fun h => h.resolve_left fun h => heq h.1⟩
    cases f.order <;> exact decide_eq_true_iff

theorem compareParts_ne_nil {full : Bool} {f : Field} {fs : List Field} {ls rs : List Key}
    (h : compareParts full (f :: fs) ls rs = true) :
    ∃ l ls' r rs', ls = l :: ls' ∧ rs = r :: rs' := by
  cases ls with
  | nil => cases h
  | cons l ls =>
    cases rs with
    | nil => cases h
    | cons r rs => exact ⟨l, ls, r, rs, rfl, rfl⟩

/-- Three lists of parts are not in a circle, unless their full keys are. -/
theorem not_circle {b₁ b₂ b₃ : Bool} : ∀ {fs : List Field} {ls rs ts : List Key},
    compareParts b₁ fs ls rs = true → compareParts b₂ fs rs ts = true →
      compareParts b₃ fs ts ls = true → b₁ = true ∧ b₂ = true ∧ b₃ = true := by
  intro fs
  induction fs with
  | nil => exact fun h₁ h₂ h₃ => ⟨h₁, h₂, h₃⟩
  | cons f fs ih =>
    intro ls rs ts h₁ h₂ h₃
    obtain ⟨l, ls, r, rs, rfl, rfl⟩ := compareParts_ne_nil h₁
    obtain ⟨-, -, t, ts, -, rfl⟩ := compareParts_ne_nil h₂
    rw [compareParts_cons] at h₁ h₂ h₃
    rcases h₁ with ⟨rfl, h₁⟩ | h₁
    · rcases h₂ with ⟨rfl, h₂⟩ | h₂
      · exact ih h₁ h₂ (h₃.resolve_right fun hb => hb.ne rfl).2
      · rcases h₃ with ⟨rfl, -⟩ | h₃
        · exact absurd rfl h₂.ne
        · exact absurd h₃ h₂.asymm
    · rcases h₂ with ⟨rfl, -⟩ | h₂
      · rcases h₃ with ⟨rfl, -⟩ | h₃
        · exact absurd rfl h₁.ne
        · exact absurd h₃ h₁.asymm
      · rcases h₃ with ⟨rfl, -⟩ | h₃
        · exact absurd h₂ h₁.asymm
        · exact absurd h₃ (h₁.trans h₂).asymm

theorem compareParts_asymm {b₁ b₂ : Bool} : ∀ {fs : List Field} {ls rs : List Key},
    compareParts b₁ fs ls rs = true → compareParts b₂ fs rs ls = true →
      b₁ = true ∧ b₂ = true := by
  intro fs
  induction fs with
  | nil => exact fun h₁ h₂ => ⟨h₁, h₂⟩
  | cons f fs ih =>
    intro ls rs h₁ h₂
    obtain ⟨l, ls, r, rs, rfl, rfl⟩ := compareParts_ne_nil h₁
    rw [compareParts_cons] at h₁ h₂
    rcases h₁ with ⟨rfl, h₁⟩ | h₁
    · exact ih h₁ (h₂.resolve_right fun hb => hb.ne rfl).2
    · rcases h₂ with ⟨rfl, -⟩ | h₂
      · exact absurd rfl h₁.ne
      · exact absurd h₂ h₁.asymm

end IndexKey

namespace IndexQuery

variable {q : IndexQuery}

theorem indexKeyCompare_iff {l r : IndexKey} : q.indexKeyCompare l r = true ↔
    l.entry.value ≠ r.entry.value ∧
      IndexKey.compareParts (l.entry.key < r.entry.key) q.fields (l.keyParts q.unique)
        (r.keyParts q.unique) = true := by
  rw [indexKeyCompare]
  by_cases h : l.entry.value = r.entry.value
  · rw [if_pos h]
    exact iff_of_false Bool.false_ne_true fun h' => h'.1 h
  · rw [if_neg h]
    exact ⟨fun h' => ⟨h, h'⟩, And.right⟩

/-- **Keys that are told apart** are in a strict order. -/
theorem Apart.orderedOn {keys : List IndexKey} (h : Apart q keys) :
    OrderedOn q.indexKeyCompare keys := by
  have hasymm : ∀ l r, q.indexKeyCompare l r = true → ¬ q.indexKeyCompare r l = true := by
    intro l r hl hr
    rw [indexKeyCompare_iff] at hl hr
    obtain ⟨hlt, hgt⟩ := IndexKey.compareParts_asymm hl.2 hr.2
    exact lt_asymm (of_decide_eq_true hlt) (of_decide_eq_true hgt)
  have htotal : ∀ a ∈ keys, ∀ b ∈ keys, a = b ∨ Comparable q.indexKeyCompare a b := by
    intro a ha b hb
    by_cases heq : a = b
    · exact .inl heq
    · have hforall : ∀ ⦃a⦄, a ∈ keys → ∀ ⦃b⦄, b ∈ keys → a ≠ b → Comparable q.indexKeyCompare a b :=
        List.Pairwise.forall h
      exact .inr (hforall ha hb heq)
  refine ⟨fun a _ b _ => hasymm a b, fun a ha b _ c hc hab hbc => ?_, htotal⟩
  rcases htotal a ha c hc with rfl | hac | hca
  · exact absurd hbc (hasymm a b hab)
  · exact hac
  · rw [indexKeyCompare_iff] at hab hbc hca
    obtain ⟨h₁, h₂, h₃⟩ := IndexKey.not_circle hab.2 hbc.2 hca.2
    exact absurd (lt_trans (of_decide_eq_true h₁) (of_decide_eq_true h₂))
      (lt_asymm (of_decide_eq_true h₃))

end IndexQuery

/-! ### The parts of a key -/

namespace IndexKey

theorem splitParts_append {w : Key} (hw : ∀ c ∈ w, c ≠ separatorChar) (r : Key) :
    ∀ part : Key, splitParts part (w ++ separatorChar :: r) =
      (part ++ w) :: splitParts [separatorChar] r := by
  induction w with
  | nil =>
    intro part
    rw [List.nil_append, splitParts, if_pos rfl, List.append_nil]
  | cons c w ih =>
    intro part
    rw [List.cons_append, splitParts, if_neg (hw c List.mem_cons_self),
      ih fun c' hc' => hw c' (List.mem_cons_of_mem c hc')]
    simp

/-- The separator behind the queried parts is among the first `m` symbols. -/
def Within (m : Nat) : Key → List Field → Entry → Prop
  | P, [], _ => P.length + 1 ≤ m
  | P, _ :: fs, e => ∃ w, Part P w e ∧ Within m (P ++ separatorChar :: w) fs e

theorem Within.le {m : Nat} : ∀ {fs : List Field} {P : Key} {e : Entry}, Within m P fs e →
    P.length + 1 ≤ m := by
  intro fs
  induction fs with
  | nil => exact fun h => h
  | cons f fs ih =>
    rintro P e ⟨w, -, h⟩
    have hle := ih h
    rw [List.length_append] at hle
    omega

/-- What is left of a key behind a part. -/
theorem rest_eq {P w rest : Key} {e : Entry} {m : Nat} (hw : Part P w e)
    (hm : (P ++ separatorChar :: w).length + 1 ≤ m)
    (hrest : e.key.take m = P ++ separatorChar :: rest) :
    ∃ r, rest = w ++ separatorChar :: r ∧
      e.key.take m = (P ++ separatorChar :: w) ++ separatorChar :: r := by
  obtain ⟨-, r, hr⟩ := hw
  have hsplit : e.key = (P ++ separatorChar :: w ++ [separatorChar]) ++ r := by
    rw [hr]
    simp
  have hlen : (P ++ separatorChar :: w ++ [separatorChar]).length ≤ m := by
    rw [List.length_append, List.length_singleton]
    exact hm
  have htake : e.key.take m =
      (P ++ separatorChar :: w) ++ separatorChar :: r.take (m - (P ++ separatorChar :: w ++
        [separatorChar]).length) := by
    rw [hsplit, List.take_append, List.take_of_length_le hlen]
    simp
  refine ⟨_, ?_, htake⟩
  rw [htake, List.append_assoc] at hrest
  exact (List.cons.inj (List.append_cancel_left hrest)).2.symm

theorem before_append {forward : Bool} {w w' : Key} (part : Key) (h : Before forward w w') :
    Before forward (part ++ w) (part ++ w') := by
  cases forward with
  | true => exact (Order.append_left_lt ..).mpr h
  | false => exact (Order.append_left_lt ..).mpr h

/-- **The order of the parts** is the order of the comparison. -/
theorem compareParts_of_precedes {full : Bool} {e e' : Entry} {m m' : Nat}
    (hfull : e.key < e'.key → full = true) : ∀ {fs : List Field} {P part rest rest' : Key},
      Precedes P fs e e' → Within m P fs e → Within m' P fs e' →
        e.key.take m = P ++ separatorChar :: rest → e'.key.take m' = P ++ separatorChar :: rest' →
          compareParts full fs (splitParts part rest) (splitParts part rest') = true := by
  intro fs
  induction fs with
  | nil => exact fun h _ _ _ _ => hfull h
  | cons f fs ih =>
    rintro P part rest rest' ⟨w, w', hw, hw', h⟩ ⟨w₁, hw₁, hin⟩ ⟨w₂, hw₂, hin'⟩ hrest hrest'
    obtain rfl := hw.unique hw₁
    obtain rfl := hw'.unique hw₂
    obtain ⟨r, rfl, hr⟩ := rest_eq hw hin.le hrest
    obtain ⟨r', rfl, hr'⟩ := rest_eq hw' hin'.le hrest'
    rw [splitParts_append hw.1.ne, splitParts_append hw'.1.ne, compareParts_cons]
    by_cases heq : w = w'
    · subst heq
      rw [if_pos rfl] at h
      exact .inl ⟨rfl, ih h hin hin' hr hr'⟩
    · rw [if_neg heq] at h
      exact .inr (before_append part h)

/-- How much of a key is split into parts. -/
def partsSize (unique : Bool) (key : Key) : Nat :=
  if unique then key.length else key.length - Dataunit.ObjectId.length

end IndexKey

namespace IndexQuery

variable {q : IndexQuery}

theorem keyParts_eq {src : Source} {k : IndexKey} {unique : Bool} {rest : Key}
    (htopic : k.topic = src.topic)
    (hrest : k.entry.key.take (IndexKey.partsSize unique k.entry.key) =
      src.start ++ separatorChar :: rest) :
    k.keyParts unique = IndexKey.splitParts [] rest := by
  have hlen : (src.start ++ [separatorChar]).length = fieldsOffset + k.topic.length := by
    simp only [Source.start, fieldsOffset, List.length_append, src.indexId.size,
      List.length_cons, List.length_nil, htopic]
    omega
  have hassoc : src.start ++ separatorChar :: rest = (src.start ++ [separatorChar]) ++ rest := by
    simp
  show IndexKey.splitParts [] ((k.entry.key.take (IndexKey.partsSize unique k.entry.key)).drop _) = _
  rw [hrest, hassoc, List.drop_left' hlen]

/-- **What precedes is less**, for keys of one topic with different values. -/
theorem less_of_precedes {src : Source} {k k' : IndexKey} (hne : q.fields ≠ [])
    (htopic : k.topic = src.topic) (htopic' : k'.topic = src.topic)
    (hvalue : k.entry.value ≠ k'.entry.value)
    (hin : IndexKey.Within (IndexKey.partsSize q.unique k.entry.key) src.start q.fields k.entry)
    (hin' : IndexKey.Within (IndexKey.partsSize q.unique k'.entry.key) src.start q.fields k'.entry)
    (h : Precedes src.start q.fields k.entry k'.entry) : q.indexKeyCompare k k' = true := by
  have hstart : ∀ {e : Entry} {m : Nat}, IndexKey.Within m src.start q.fields e →
      ∃ rest, e.key.take m = src.start ++ separatorChar :: rest := by
    intro e m hin
    cases hfs : q.fields with
    | nil => exact absurd hfs hne
    | cons f fs =>
      rw [hfs] at hin
      obtain ⟨w, hw, hin⟩ := hin
      obtain ⟨-, r, hr⟩ := hw
      have hle := hin.le
      rw [List.length_append] at hle
      refine ⟨(w ++ separatorChar :: r).take (m - src.start.length - 1), ?_⟩
      have hm : m - src.start.length = m - src.start.length - 1 + 1 := by omega
      rw [hr, List.take_append, List.take_of_length_le (by omega), hm, List.take_succ_cons]
      simp
  obtain ⟨rest, hrest⟩ := hstart hin
  obtain ⟨rest', hrest'⟩ := hstart hin'
  rw [indexKeyCompare_iff, keyParts_eq htopic hrest, keyParts_eq htopic' hrest']
  exact ⟨hvalue, IndexKey.compareParts_of_precedes (fun hlt => decide_eq_true hlt) h hin hin' hrest
    hrest'⟩

/-! ### Queries in order -/

theorem within_of_key {m : Nat} {r : Key} : ∀ {fs : List Field} {P : Key} {row : Values fs}
    {e : Entry}, (∀ f ∈ fs, f.column.Ordered) →
      e.key = P ++ (Values.key fs row ++ separatorChar :: r) → e.key.length ≤ m + r.length →
        IndexKey.Within m P fs e := by
  intro fs
  induction fs with
  | nil =>
    intro P row e _ hkey hm
    rw [hkey, Values.key] at hm
    simp only [List.nil_append, List.length_append, List.length_cons] at hm
    show P.length + 1 ≤ m
    omega
  | cons f fs ih =>
    intro P row e hc hkey hm
    have hf := hc f List.mem_cons_self
    have hholds : Holds P (f :: fs) row e := ⟨r, hkey⟩
    have hnext : e.key = (P ++ separatorChar :: f.column.form row.1) ++
        (Values.key fs row.2 ++ separatorChar :: r) := by
      rw [hkey, Values.key]
      simp
    exact ⟨_, hholds.part hf, ih (fun g hg => hc g (List.mem_cons_of_mem f hg)) hnext hm⟩

/-- Rows in entries with the same parts are the same. -/
theorem row_eq : ∀ {fs : List Field} {P : Key} {row row' : Values fs} {e e' : Entry},
    (∀ f ∈ fs, f.column.Ordered) → Holds P fs row e → Holds P fs row' e' →
      SameParts P fs e e' → row = row' := by
  intro fs
  induction fs with
  | nil => exact fun _ _ _ _ => rfl
  | cons f fs ih =>
    rintro P row row' e e' hc hrow hrow' ⟨w, hw, hw', hsame⟩
    have hf := hc f List.mem_cons_self
    have hv : f.column.form row.1 = w := (hrow.part hf).unique hw
    have hv' : f.column.form row'.1 = w := (hrow'.part hf).unique hw'
    have hfirst : row.1 = row'.1 := (form_inj hf).mp (hv.trans hv'.symm)
    have hnext := hrow.next
    have hnext' := hrow'.next
    rw [hv] at hnext
    rw [hv'] at hnext'
    exact Prod.ext hfirst (ih (fun g hg => hc g (List.mem_cons_of_mem f hg)) hnext hnext' hsame)

/-- A query whose searches meet the matches in the order of `IndexKeyCompare`: values to leave
out are in ascending order, and not the last condition; ties are in ascending order, or there
are none.  An object id ends the keys of an index that is not unique. -/
structure InOrder (q : IndexQuery) (now : Nat) (ps : List Partition) : Prop where
  regular : q.Regular now ps
  keyed : q.unique = true ∨ ∀ p ∈ ps, ∀ topic ∈ q.topicsOf p, ∀ e ∈ p.entries, ∀ row r,
    e.key = (q.source now p topic).start ++ (Values.key q.fields row ++ separatorChar :: r) →
      Dataunit.ObjectId.length ≤ r.length
  neq : ∀ f ∈ q.fields, f.op = .neq → f.order = .asc
  last : ∀ f, q.fields.getLast? = some f → f.op ≠ .neq
  ties : (∀ f, q.fields.getLast? = some f → f.order = .asc) ∨
    ∀ p ∈ ps, ∀ topic ∈ q.topicsOf p, ∀ e ∈ p.entries, ∀ e' ∈ p.entries, ∀ row,
      Holds (q.source now p topic).start q.fields row e →
        Holds (q.source now p topic).start q.fields row e' → Values.Matches q.fields row → e = e'

section
variable {now : Nat} {ps : List Partition} {p : Partition} {topic : List UInt8}

/-- What a query in order brings to the search in a topic. -/
structure SearchInOrder (src : Source) (f : Field) (fs : List Field) : Prop where
  kept : Kept src src.start (f :: fs)
  directed : ∀ g ∈ f :: fs, IndexKeySearch.Apart g ∧ Directed g
  chained : Chained (f :: fs)
  settled : Settled src src.start (f :: fs)
  one : OneRange ((f :: fs).getLast (List.cons_ne_nil f fs))

theorem InOrder.search (h : q.InOrder now ps) (hp : p ∈ ps) (ht : topic ∈ q.topicsOf p) :
    ∃ f fs, q.fields = f :: fs ∧ SearchInOrder (q.source now p topic) f fs := by
  have hrows := h.regular.rows p hp topic ht
  have hsplits : ∀ f ∈ q.fields, Splits f := fun f hf =>
    splits_of_regular (h.regular.ordered f hf) (h.regular.ordinary f hf) (h.regular.regular f hf)
  have hdirected : ∀ f ∈ q.fields, IndexKeySearch.Apart f ∧ Directed f := fun f hf =>
    ⟨(hsplits f hf).apart, directed_of_regular (h.regular.ordered f hf) (h.regular.ordinary f hf)
      (h.regular.regular f hf) (h.neq f hf)⟩
  have hchained : Chained q.fields := h.regular.chain.imp_of_mem_imp fun f g hf hg hfg =>
    hfg.imp (hsplits f hf).onValues (hsplits g hg).ownSides
  have hsettled : Settled (q.source now p topic) (q.source now p topic).start q.fields := by
    refine h.ties.imp id fun hties e he e' he' hhit hhit' hsame => ?_
    have hmatch : ∀ {e : Entry}, e ∈ p.entries → Hit (q.source now p topic).start q.fields e →
        ∃ row, Holds (q.source now p topic).start q.fields row e ∧
          Values.Matches q.fields row := by
      intro e he hhit
      have hstarts : (q.source now p topic).indexRangeFrom <+: e.key := by
        cases hfs : q.fields with
        | nil => exact absurd hfs h.regular.ne_nil
        | cons f fs =>
          rw [hfs] at hhit
          obtain ⟨w, -, hw, -⟩ := hhit
          exact hw.starts
      obtain ⟨⟨row, hrow⟩, -⟩ := hrows.rows e he hstarts
      exact ⟨row, hrow, (hrow.hit_iff h.regular.ordered hsplits).mp hhit⟩
    obtain ⟨row, hrow, hmatches⟩ := hmatch he hhit
    obtain ⟨row', hrow', -⟩ := hmatch he' hhit'
    obtain rfl := row_eq h.regular.ordered hrow hrow' hsame
    exact hties p hp topic ht e he e' he' row hrow hrow' hmatches
  have hkept := hrows.kept h.regular.ordered
  have hne := h.regular.ne_nil
  have hone : ∀ hne, OneRange (q.fields.getLast hne) := fun hne =>
    oneRange_of_ordinary (h.regular.ordinary _ (List.getLast_mem hne))
      (h.last _ (List.getLast?_eq_some_getLast hne))
  generalize q.fields = fields at *
  cases fields with
  | nil => exact absurd rfl hne
  | cons f fs => exact ⟨f, fs, rfl, hkept, hdirected, hchained, hsettled, hone _⟩

/-- **Behind a stop** the search in a topic reports matches only. -/
theorem InOrder.reports (h : q.InOrder now ps) (hp : p ∈ ps) (ht : topic ∈ q.topicsOf p) :
    (q.searchTopic now p topic).Reports (· ∈ (q.searchTopic now p topic).all) fun _ => True := by
  obtain ⟨f, fs, hfs, hs⟩ := h.search hp ht
  have hhits := searchTopic_hits hs.kept (fun g hg => (hs.directed g hg).1) hs.chained
  rw [all_searchTopic, called_eq, searchTopic, hfs]
  have hreports := reports_hits fs f 0 _ _ _ (level_start _) hs.kept
    (fun g hg => (hs.directed g hg).1) hs.chained (.inr ⟨rfl, rfl⟩) hs.one
  have hmap := hreports.map (g := fun e => (⟨p.range, topic, e⟩ : IndexKey)) fun e he =>
    List.mem_map_of_mem ((hhits.2 e).mpr he)
  exact hmap.mono (fun _ h => h) fun _ _ => trivial

end

end IndexQuery

end Hatn.Db
