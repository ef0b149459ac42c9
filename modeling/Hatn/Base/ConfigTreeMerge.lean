import Hatn.Base.ConfigTree
import Hatn.Base.ConfigTreePaths
import Hatn.Tables.Loops
import Mathlib.Data.String.Basic

/-!
# Merging configuration trees

A tree is merged into another one node by node: maps in a loop over the keys of the other map, and
arrays of the same type as the mode says.  What comes of it at a place is said without the loops by
`lawAt`: where the node there comes from, and what is seen of it.
-/

namespace Hatn.Base

open Tables

/-- `ArrayViewT::merge`; `f` is what the mode `merge` makes of an item and the one of the other array
at its index. -/
def ArrayMerge.mergeViews {α : Type} (mode : ArrayMerge) (self : List α) (other : Items α)
    (f : Fin other.size → α → Except ConfigTreeError α) : Except ConfigTreeError (List α) :=
  match mode with
  | .merge => (Items.updateEach f self).map fun merged => merged ++ other.toList.drop merged.length
  | .append => .ok (self ++ other.toList)
  | .prepend => .ok (other.toList ++ self)
  | .override => .ok other.toList
  | .preserve => .ok self

/-- `ArrayViewT::merge` of arrays without nodes. -/
def ArrayMerge.mergeValues {α : Type} (mode : ArrayMerge) (self other : List α) :
    Except ConfigTreeError (List α) :=
  mode.mergeViews self (Items.ofList other) fun i _ => .ok (other.get i)

/-- `mergeArrays` of arrays without nodes. -/
def ConfigArray.merge (mode : ArrayMerge) :
    ConfigArray → ConfigArray → Except ConfigTreeError ConfigArray
  | ints l, ints l' => (mode.mergeValues l l').map ints
  | doubles l, doubles l' => (mode.mergeValues l l').map doubles
  | bools l, bools l' => (mode.mergeValues l l').map bools
  | strings l, strings l' => (mode.mergeValues l l').map strings
  | _, _ => .error .invalidType

namespace ConfigTreeValue

/-- `asArray` of an array without nodes. -/
def asArray : ConfigTreeValue → Except ConfigTreeError ConfigArray
  | array _ a => .ok a
  | unset _ => .error .valueNotSet
  | _ => .error .invalidType

/-- `merge` at the root. -/
def merge (mode : ArrayMerge) :
    ConfigTreeValue → ConfigTreeValue → Except ConfigTreeError ConfigTreeValue
  | current, other =>
    if !current.isSetOrDefault then .ok other
    else
      let current := if other.default_.isSome then current.setDefault other.default_ else current
      if !other.isSet then .ok current
      else if !current.isSet || other.type.isScalar || other.type ≠ current.type then
        -- `setValue`
        .ok (other.setDefault current.default_)
      else
        match other with
        | map _ ⟨keys, entry⟩ => do
          let m ← current.asMap
          let m ← Keyed.updateEach (fun (k : {k // k ∈ keys}) c =>
            match c with
            | none => .ok (entry k)
            | some c => merge mode c (entry k)) m
          return map current.default_ m
        | trees _ ⟨size, item⟩ => do
          let items ← current.asTrees
          let l ← mode.mergeViews items.toList ⟨size, item⟩ fun i c => merge mode c (item i)
          return trees current.default_ (Items.ofList l)
        | array _ a => do
          let self ← current.asArray
          return array current.default_ (← self.merge mode a)
        | _ => .ok current
termination_by structural _ other => other

/-- `merge` at a path, which is created if need be, with the error. -/
def mergeAt (mode : ArrayMerge) (root : List String) (t other : ConfigTreeValue) :
    ConfigTreeValue × Option ConfigTreeError :=
  match t.create root with
  | (t, .error error) => (t, some error)
  | (t, .ok place) =>
    -- there is a node at the place
    match merge mode ((t.at_ place).getD fresh) other with
    | .error error => (t, some error)
    | .ok c => (replaceAt c place t, none)

end ConfigTreeValue

/-! ### What comes of a merge -/

/-- Where a node of the merged tree comes from: it is one of the nodes of the two trees, or two nodes
at the same edge are merged. -/
inductive Source (τ : Type)
  | one (c : τ)
  | both (c c' : τ)

/-- The nodes at one edge. -/
def Source.pair {τ : Type} : Option τ → Option τ → Option (Source τ)
  | none, none => none
  | some c, none => some (one c)
  | none, some c' => some (one c')
  | some c, some c' => some (both c c')

theorem Source.pair_none {τ : Type} (c' : Option τ) : pair none c' = c'.map one := by
  cases c' <;> rfl

/-- The item at an index of the merged array. -/
def ArrayMerge.source {τ : Type} (mode : ArrayMerge) (a b : Items τ) (i : Nat) :
    Option (Source τ) :=
  match mode with
  | .merge => Source.pair (a.find i) (b.find i)
  | .append => (if i < a.size then a.find i else b.find (i - a.size)).map .one
  | .prepend => (if i < b.size then b.find i else a.find (i - b.size)).map .one
  | .override => (b.find i).map .one
  | .preserve => (a.find i).map .one

/-- The length of the merged array. -/
def ArrayMerge.size (mode : ArrayMerge) (m n : Nat) : Nat :=
  match mode with
  | .merge => max m n
  | .append => m + n
  | .prepend => n + m
  | .override => n
  | .preserve => m

/-- The merged array, where the types are the same; else the other array. -/
def ConfigArray.merged (mode : ArrayMerge) : ConfigArray → ConfigArray → ConfigArray
  | ints l, ints l' => ints (mode.mergeArrays l l')
  | doubles l, doubles l' => doubles (mode.mergeArrays l l')
  | bools l, bools l' => bools (mode.mergeArrays l l')
  | strings l, strings l' => strings (mode.mergeArrays l l')
  | _, other => other

namespace ConfigTreeValue

/-- The value of the merge: what `current` has, where the other node has none; merged maps and
arrays; and else what the other node has. -/
def lawValue (mode : ArrayMerge) : ConfigTreeValue → ConfigTreeValue → SeenValue
  | current, unset _ => current.seenValue
  | array _ a, array _ a' => .array (a.merged mode a')
  | trees _ items, trees _ items' => .trees (mode.size items.size items'.size)
  | _, other => other.seenValue

/-- What is seen of the merge: the default value of the other node, if there is one, is taken. -/
def lawSeen (mode : ArrayMerge) (current other : ConfigTreeValue) : Seen :=
  ⟨lawValue mode current other, other.default_.or current.default_⟩

/-- Where the node at an edge of the merge comes from. -/
def source (mode : ArrayMerge) :
    ConfigTreeValue → ConfigTreeValue → Edge → Option (Source ConfigTreeValue)
  | current, unset _, e => (current.child e).map .one
  | map _ m, map _ m', .key k => Source.pair (m.find k) (m'.find k)
  | trees _ items, trees _ items', .index i => mode.source items items' i
  | _, other, e => (other.child e).map .one

/-- **The merge law**: what is seen of the merge at a place. -/
def lawAt (mode : ArrayMerge) : ConfigTreeValue → ConfigTreeValue → List Edge → Option Seen
  | current, other, [] => some (lawSeen mode current other)
  | current, other, e :: place =>
    match source mode current other e with
    | none => none
    | some (.one c) => c.seenAt place
    | some (.both c c') => lawAt mode c c' place

/-- A node of the merge comes from there. -/
def Comes (mode : ArrayMerge) (src : Option (Source ConfigTreeValue))
    (child : Option ConfigTreeValue) : Prop :=
  match src with
  | none => child = none
  | some (.one c) => child = some c
  | some (.both c c') => ∃ t, merge mode c c' = .ok t ∧ child = some t

/-- The merge of two nodes has what it should have, and so have the nodes below it. -/
structure Merged (mode : ArrayMerge) (current other t : ConfigTreeValue) : Prop where
  seen : t.seen = lawSeen mode current other
  child : ∀ e, Comes mode (source mode current other e) (t.child e)

theorem comes_one (mode : ArrayMerge) (c : Option ConfigTreeValue) :
    Comes mode (c.map .one) c := by
  cases c <;> rfl

end ConfigTreeValue

/-! ### Arrays -/

section Arrays
variable {α : Type} {mode : ArrayMerge}

theorem mergeViews_ok {self : List α} {other : Items α}
    {f : Fin other.size → α → Except ConfigTreeError α} {g : Fin other.size → α}
    (h : mode = .merge → ∀ i t, self[i.1]? = some t → f i t = .ok (g i)) :
    ∃ l, mode.mergeViews self other f = .ok l ∧ l.length = mode.size self.length other.size ∧
      ∀ j, l[j]? = match mode with
      | .merge => if hj : j < other.size then
          if j < self.length then some (g ⟨j, hj⟩) else other.find j else self[j]?
      | .append => if j < self.length then self[j]? else other.find (j - self.length)
      | .prepend => if j < other.size then other.find j else self[j - other.size]?
      | .override => other.find j
      | .preserve => self[j]? := by
  cases mode with
  | merge =>
    obtain ⟨l, hl, hget⟩ := Items.updateEach_ok (h rfl)
    have hlength : l.length = self.length := by
      refine Nat.le_antisymm ?_ ?_
      · have hnone := hget self.length
        rw [List.getElem?_eq_none (Nat.le_refl _)] at hnone
        exact List.getElem?_eq_none_iff.mp (hnone.trans (by split <;> rfl))
      · have hnone := hget l.length
        rw [List.getElem?_eq_none (Nat.le_refl _)] at hnone
        refine List.getElem?_eq_none_iff.mp ?_
        split at hnone
        · exact Option.map_eq_none_iff.mp hnone.symm
        · exact hnone.symm
    refine ⟨l ++ other.toList.drop l.length, ?_, ?_, fun j => ?_⟩
    · rw [ArrayMerge.mergeViews, hl]
      rfl
    · rw [List.length_append, List.length_drop, Items.length_toList, hlength, ArrayMerge.size]
      omega
    · rw [List.getElem?_append, hlength, hget, List.getElem?_drop, Items.getElem?_toList]
      by_cases hself : j < self.length
      · rw [if_pos hself, List.getElem?_eq_getElem hself]
        dsimp only
        split
        next => rfl
        next => rfl
      · have hle := Nat.le_of_not_lt hself
        rw [if_neg hself, Nat.add_sub_cancel' hle]
        dsimp only
        split
        next => rfl
        next hj => rw [Items.find_eq_none_iff.mpr (Nat.le_of_not_lt hj),
          List.getElem?_eq_none hle]
  | append =>
    refine ⟨_, rfl, ?_, fun j => ?_⟩
    · rw [List.length_append, Items.length_toList, ArrayMerge.size]
    · rw [List.getElem?_append, Items.getElem?_toList]
  | prepend =>
    refine ⟨_, rfl, ?_, fun j => ?_⟩
    · rw [List.length_append, Items.length_toList, ArrayMerge.size]
    · rw [List.getElem?_append, Items.length_toList, Items.getElem?_toList]
  | override => exact ⟨_, rfl, Items.length_toList other, Items.getElem?_toList other⟩
  | preserve => exact ⟨_, rfl, rfl, fun _ => rfl⟩

theorem mergeValues_eq (mode : ArrayMerge) (self other : List α) :
    mode.mergeValues self other = .ok (mode.mergeArrays self other) := by
  obtain ⟨l, hl, -, hget⟩ := @mergeViews_ok α mode self (Items.ofList other)
    (fun i _ => .ok (other.get i)) other.get fun _ _ _ _ => rfl
  rw [ArrayMerge.mergeValues, hl]
  refine congrArg Except.ok (List.ext_getElem? fun j => ?_)
  have hfind := Items.find_ofList other
  have hsize : (Items.ofList other).size = other.length := rfl
  rw [hget]
  cases mode with
  | merge =>
    dsimp only
    rw [ArrayMerge.mergeArrays, List.getElem?_append]
    by_cases hj : j < other.length
    · rw [dif_pos (hsize ▸ hj : j < (Items.ofList other).size), if_pos hj]
      split
      · exact (List.getElem?_eq_getElem hj).symm
      · exact hfind j
    · rw [dif_neg (hsize ▸ hj : ¬ j < (Items.ofList other).size), if_neg hj, List.getElem?_drop,
        Nat.add_sub_cancel' (Nat.le_of_not_lt hj)]
  | append =>
    dsimp only
    rw [ArrayMerge.mergeArrays, List.getElem?_append, hfind]
  | prepend =>
    dsimp only
    rw [ArrayMerge.mergeArrays, List.getElem?_append, hfind, hsize]
  | override => exact hfind j
  | preserve => rfl

theorem merge_configArray {a a' : ConfigArray} (h : a'.type = a.type) :
    a.merge mode a' = .ok (a.merged mode a') := by
  cases a <;> cases a' <;> first | exact congrArg (Except.map _) (mergeValues_eq mode _ _) | cases h

end Arrays

namespace ConfigTreeValue

variable {mode : ArrayMerge} {a b t : ConfigTreeValue}

/-- A node without a value and a default value is replaced. -/
theorem merged_of_not_set (h : a.isSetOrDefault = false) : Merged mode a b b := by
  have hvalue : lawValue mode fresh b = b.seenValue := by cases b <;> rfl
  have hsource : ∀ e, source mode fresh b e = (b.child e).map .one := fun e => by
    cases b <;> cases e <;> rfl
  rw [eq_fresh h]
  constructor
  · rw [lawSeen, hvalue, fresh, default_, Option.or_none]
    rfl
  · intro e
    rw [hsource]
    exact comes_one mode _

/-! ### The ways that `merge` goes -/

alias merge_eq := merge.eq_1

/-- The default value is merged first. -/
theorem merge_default (a b : ConfigTreeValue) :
    (if b.default_.isSome then a.setDefault b.default_ else a) =
      a.setDefault (b.default_.or a.default_) := by
  cases b.default_ with
  | none => exact a.setDefault_default.symm
  | some d => rfl

theorem merge_of_not_set (h : a.isSetOrDefault = false) (b : ConfigTreeValue) :
    merge mode a b = .ok b := by
  rw [merge_eq, h]
  rfl

theorem merge_unset (h : a.isSetOrDefault = true) (hb : b.isSet = false) :
    merge mode a b = .ok (a.setDefault (b.default_.or a.default_)) := by
  rw [merge_eq, h, merge_default, hb]
  rfl

theorem merge_replace (h : a.isSetOrDefault = true) (hb : b.isSet = true)
    (hr : a.isSet = false ∨ b.type.isScalar = true ∨ b.type ≠ a.type) :
    merge mode a b = .ok (b.setDefault (b.default_.or a.default_)) := by
  have hr : (!a.isSet || b.type.isScalar || decide (b.type ≠ a.type)) = true := by
    rcases hr with hr | hr | hr <;> simp [hr]
  have htype : (a.setDefault (b.default_.or a.default_)).type = a.type := by cases a <;> rfl
  rw [merge_eq, h, merge_default, hb]
  dsimp only
  rw [isSet_setDefault, htype, if_neg (by decide), if_neg (by decide), if_pos hr,
    default_setDefault]

theorem bind_map {α β γ : Type} (m : α) (f : α → Except ConfigTreeError β) (g : β → γ) :
    ((.ok m : Except ConfigTreeError α) >>= fun x => f x >>= fun y => pure (g y)) =
      (f m).map g := by
  show (f m >>= fun y => pure (g y)) = _
  cases f m <;> rfl

theorem merge_map (d d' : Option ConfigScalar) (m m' : Keyed String ConfigTreeValue) :
    merge mode (map d m) (map d' m') =
      (Keyed.updateEach (fun k c => match c with
        | none => .ok (m'.entry k)
        | some c => merge mode c (m'.entry k)) m).map (map (d'.or d)) := by
  rw [merge_eq, if_neg nofun, merge_default]
  dsimp only
  rw [if_neg nofun, if_neg (by simp [setDefault, isSet, type, ConfigType.isScalar])]
  exact bind_map m _ (map (d'.or d))

theorem merge_trees (d d' : Option ConfigScalar) (items items' : Items ConfigTreeValue) :
    merge mode (trees d items) (trees d' items') =
      (mode.mergeViews items.toList items' fun i c => merge mode c (items'.item i)).map
        fun l => trees (d'.or d) (Items.ofList l) := by
  rw [merge_eq, if_neg nofun, merge_default]
  dsimp only
  rw [if_neg nofun, if_neg (by simp [setDefault, isSet, type, ConfigType.isScalar])]
  exact bind_map items _ fun l => trees (d'.or d) (Items.ofList l)

theorem merge_array (d d' : Option ConfigScalar) {a a' : ConfigArray} (h : a'.type = a.type) :
    merge mode (array d a) (array d' a') = .ok (array (d'.or d) (a.merged mode a')) := by
  have hscalar : a.type.isScalar = false := by cases a <;> rfl
  rw [merge_eq, if_neg nofun, merge_default]
  dsimp only
  rw [if_neg nofun, if_neg (by simp [setDefault, isSet, type, hscalar, h])]
  refine (bind_map a (fun x => x.merge mode a') (array (d'.or d))).trans ?_
  rw [merge_configArray h]
  rfl

/-! ### The merge law -/

/-- A node that is one of the two, with the default value. -/
theorem merged_one {c : ConfigTreeValue} (hvalue : lawValue mode a b = c.seenValue)
    (hsource : ∀ e, source mode a b e = (c.child e).map .one) :
    Merged mode a b (c.setDefault (b.default_.or a.default_)) := by
  constructor
  · rw [lawSeen, hvalue, seen, default_setDefault]
    cases c <;> rfl
  · intro e
    rw [hsource, child_setDefault]
    exact comes_one mode _

theorem merged_replace (h : a.isSetOrDefault = true) (hb : b.isSet = true)
    (hr : a.isSet = false ∨ b.type.isScalar = true ∨ b.type ≠ a.type)
    (hvalue : lawValue mode a b = b.seenValue)
    (hsource : ∀ e, source mode a b e = (b.child e).map .one) :
    ∃ t, merge mode a b = .ok t ∧ Merged mode a b t :=
  ⟨_, merge_replace h hb hr, merged_one hvalue hsource⟩

theorem merged_map {d d' : Option ConfigScalar} {m m' : Keyed String ConfigTreeValue}
    (ih : ∀ k a, ∃ t, merge mode a (m'.entry k) = .ok t) :
    ∃ t, merge mode (map d m) (map d' m') = .ok t ∧ Merged mode (map d m) (map d' m') t := by
  choose f hf using ih
  obtain ⟨m₁, hm₁, hfind⟩ := @Keyed.updateEach_ok _ _ _ _ m'.keys (fun k c => match c with
    | none => .ok (m'.entry k)
    | some c => merge mode c (m'.entry k)) m (fun k => match m.find k.1 with
      | none => m'.entry k
      | some c => f k c) fun k => by
        cases m.find k.1 with
        | none => rfl
        | some c => exact hf k c
  refine ⟨map (d'.or d) m₁, by rw [merge_map, hm₁]; rfl, rfl, fun e => ?_⟩
  cases e with
  | index i => rfl
  | key k =>
    have hk : (map (d'.or d) m₁).child (.key k) = m₁.find k := rfl
    rw [source, hk, hfind]
    by_cases hkeys : k ∈ m'.keys
    · rw [dif_pos hkeys, Keyed.find_of_mem hkeys]
      cases m.find k with
      | none => rfl
      | some c => exact ⟨_, hf _ c, rfl⟩
    · rw [dif_neg hkeys, Keyed.find_eq_none_iff.mpr hkeys]
      cases m.find k <;> rfl

theorem merged_trees {d d' : Option ConfigScalar} {items items' : Items ConfigTreeValue}
    (ih : ∀ i a, ∃ t, merge mode a (items'.item i) = .ok t) :
    ∃ t, merge mode (trees d items) (trees d' items') = .ok t ∧
      Merged mode (trees d items) (trees d' items') t := by
  choose f hf using ih
  obtain ⟨l, hl, hlength, hget⟩ := @mergeViews_ok _ mode items.toList items'
    (fun i c => merge mode c (items'.item i)) (fun i => f i ((items.find i.1).getD fresh))
    fun _ i t ht => by
      rw [Items.getElem?_toList] at ht
      rw [ht]
      exact hf i t
  rw [Items.length_toList] at hlength
  have hseen : (trees (d'.or d) (Items.ofList l)).seen =
      ⟨.trees l.length, d'.or d⟩ := rfl
  have hchild : ∀ i, (trees (d'.or d) (Items.ofList l)).child (.index i) = l[i]? :=
    Items.find_ofList l
  refine ⟨trees (d'.or d) (Items.ofList l), by rw [merge_trees, hl]; rfl, ?_, fun e => ?_⟩
  · rw [hseen, hlength]
    rfl
  cases e with
  | key k => rfl
  | index i =>
    rw [source, hchild, hget]
    cases mode with
    | merge =>
      rw [Items.length_toList, Items.getElem?_toList, ArrayMerge.source]
      dsimp only
      by_cases hi' : i < items'.size
      · rw [dif_pos hi', Items.find_of_lt hi']
        by_cases hi : i < items.size
        · rw [if_pos hi, Items.find_of_lt hi]
          exact ⟨_, hf ⟨i, hi'⟩ _, rfl⟩
        · rw [if_neg hi, Items.find_eq_none_iff.mpr (Nat.le_of_not_lt hi)]
          rfl
      · rw [dif_neg hi', Items.find_eq_none_iff.mpr (Nat.le_of_not_lt hi')]
        cases items.find i <;> rfl
    | append =>
      dsimp only
      rw [Items.length_toList, Items.getElem?_toList]
      exact comes_one _ _
    | prepend =>
      dsimp only
      rw [Items.getElem?_toList]
      exact comes_one _ _
    | override => exact comes_one _ _
    | preserve =>
      dsimp only
      rw [Items.getElem?_toList]
      exact comes_one _ _

/-- Arrays of nodes and maps are no scalars and no arrays without nodes. -/
theorem type_ne (v : ConfigScalar) (x : ConfigArray) :
    x.type ≠ v.type ∧ (v.type ≠ .arrayTree ∧ v.type ≠ .map) ∧ x.type ≠ .arrayTree ∧
      x.type ≠ .map := by
  cases v <;> cases x <;> exact ⟨nofun, ⟨nofun, nofun⟩, nofun, nofun⟩

/-- **A merge** succeeds, and makes what it should make of both nodes. -/
theorem merge_ok (mode : ArrayMerge) (a b : ConfigTreeValue) :
    ∃ t, merge mode a b = .ok t ∧ Merged mode a b t := by
  induction b generalizing a with
  | unset d =>
    cases h : a.isSetOrDefault with
    | false => exact ⟨_, merge_of_not_set h _, merged_of_not_set h⟩
    | true =>
      refine ⟨_, merge_unset h rfl, merged_one (by cases a <;> rfl) fun e => ?_⟩
      cases a <;> cases e <;> rfl
  | scalar d v =>
    cases h : a.isSetOrDefault with
    | false => exact ⟨_, merge_of_not_set h _, merged_of_not_set h⟩
    | true =>
      have hscalar : (scalar d v).type.isScalar = true := by cases v <;> rfl
      refine merged_replace h rfl (.inr (.inl hscalar)) (by cases a <;> rfl) fun e => ?_
      cases a <;> cases e <;> rfl
  | array d a' =>
    cases h : a.isSetOrDefault with
    | false => exact ⟨_, merge_of_not_set h _, merged_of_not_set h⟩
    | true =>
      have hne := fun v => type_ne v a'
      cases a with
      | array d₀ a₀ =>
        by_cases htype : a'.type = a₀.type
        · refine ⟨_, merge_array d₀ d htype, rfl, fun e => ?_⟩
          cases e <;> rfl
        · have hmerged : a₀.merged mode a' = a' := by
            cases a₀ <;> cases a' <;> first | rfl | exact absurd rfl htype
          refine merged_replace h rfl (.inr (.inr htype)) ?_ fun e => by cases e <;> rfl
          exact congrArg SeenValue.array hmerged
      | unset d₀ => exact merged_replace h rfl (.inl rfl) rfl fun e => by cases e <;> rfl
      | scalar d₀ v =>
        exact merged_replace h rfl (.inr (.inr (hne v).1)) rfl fun e => by cases e <;> rfl
      | trees d₀ items =>
        refine merged_replace h rfl (.inr (.inr ?_)) rfl fun e => by cases e <;> rfl
        exact (hne (.bool true)).2.2.1
      | map d₀ m =>
        refine merged_replace h rfl (.inr (.inr ?_)) rfl fun e => by cases e <;> rfl
        exact (hne (.bool true)).2.2.2
  | trees d items ih =>
    cases h : a.isSetOrDefault with
    | false => exact ⟨_, merge_of_not_set h _, merged_of_not_set h⟩
    | true =>
      cases a with
      | trees d₀ items₀ => exact merged_trees fun i a => (ih i a).imp fun _ ht => ht.1
      | unset d₀ => exact merged_replace h rfl (.inl rfl) rfl fun e => by cases e <;> rfl
      | scalar d₀ v =>
        refine merged_replace h rfl (.inr (.inr ?_)) rfl fun e => by cases e <;> rfl
        exact (type_ne v (.ints [])).2.1.1.symm
      | array d₀ a =>
        refine merged_replace h rfl (.inr (.inr ?_)) rfl fun e => by cases e <;> rfl
        exact (type_ne (.bool true) a).2.2.1.symm
      | map d₀ m => exact merged_replace h rfl (.inr (.inr nofun)) rfl fun e => by cases e <;> rfl
  | map d m ih =>
    cases h : a.isSetOrDefault with
    | false => exact ⟨_, merge_of_not_set h _, merged_of_not_set h⟩
    | true =>
      cases a with
      | map d₀ m₀ => exact merged_map fun k a => (ih k a).imp fun _ ht => ht.1
      | unset d₀ => exact merged_replace h rfl (.inl rfl) rfl fun e => by cases e <;> rfl
      | scalar d₀ v =>
        refine merged_replace h rfl (.inr (.inr ?_)) rfl fun e => by cases e <;> rfl
        exact (type_ne v (.ints [])).2.1.2.symm
      | array d₀ a =>
        refine merged_replace h rfl (.inr (.inr ?_)) rfl fun e => by cases e <;> rfl
        exact (type_ne (.bool true) a).2.2.2.symm
      | trees d₀ items =>
        exact merged_replace h rfl (.inr (.inr nofun)) rfl fun e => by cases e <;> rfl

theorem merged_of_merge (h : merge mode a b = .ok t) : Merged mode a b t := by
  obtain ⟨t', ht', hmerged⟩ := merge_ok mode a b
  cases h.symm.trans ht'
  exact hmerged

/-- What is seen of the merge, by induction on the place. -/
theorem seenAt_merge (place : List Edge) : ∀ {a b t}, merge mode a b = .ok t →
    t.seenAt place = lawAt mode a b place := by
  induction place with
  | nil => exact fun h => congrArg some (merged_of_merge h).seen
  | cons e place ih =>
    intro a b t h
    have hchild := (merged_of_merge h).child e
    rw [seenAt_cons, lawAt]
    cases hsource : source mode a b e with
    | none =>
      rw [hsource] at hchild
      rw [show t.child e = none from hchild]
      rfl
    | some src =>
      rw [hsource] at hchild
      cases src with
      | one c =>
        rw [show t.child e = some c from hchild]
        rfl
      | both c c' =>
        obtain ⟨u, hu, hchild⟩ := hchild
        rw [hchild]
        exact ih hu

/-! ### Merges that change nothing -/

theorem merge_not_set (hb : b.isSetOrDefault = false) : merge mode a b = .ok a := by
  rw [eq_fresh hb]
  cases h : a.isSetOrDefault with
  | true =>
    rw [merge_unset h rfl]
    exact congrArg Except.ok a.setDefault_default
  | false => rw [merge_of_not_set h, eq_fresh h]

theorem comes_unique {src : Option (Source ConfigTreeValue)} {x y : Option ConfigTreeValue}
    (hx : Comes mode src x) (hy : Comes mode src y) : x = y := by
  cases src with
  | none => exact Eq.trans hx (Eq.symm hy)
  | some src =>
    cases src with
    | one c => exact Eq.trans hx (Eq.symm hy)
    | both c c' =>
      obtain ⟨t, ht, rfl⟩ := hx
      obtain ⟨t', ht', rfl⟩ := hy
      cases ht.symm.trans ht'
      rfl

/-- There is one merge of two nodes. -/
theorem merged_unique {t' : ConfigTreeValue} (h : Merged mode a b t) (h' : Merged mode a b t') :
    t = t' :=
  ext (h.seen.trans h'.seen.symm) fun e => comes_unique (h.child e) (h'.child e)

theorem mergeArrays_self {α : Type} (hmode : mode ≠ .append ∧ mode ≠ .prepend) (l : List α) :
    mode.mergeArrays l l = l := by
  cases mode with
  | merge => rw [ArrayMerge.mergeArrays, List.drop_length, List.append_nil]
  | append => exact absurd rfl hmode.1
  | prepend => exact absurd rfl hmode.2
  | override | preserve => rfl

theorem mergeArrays_again {α : Type} (hmode : mode ≠ .append ∧ mode ≠ .prepend) (l l' : List α) :
    mode.mergeArrays (mode.mergeArrays l l') l' = mode.mergeArrays l l' := by
  cases mode with
  | merge => rw [ArrayMerge.mergeArrays, ArrayMerge.mergeArrays, List.drop_left]
  | append => exact absurd rfl hmode.1
  | prepend => exact absurd rfl hmode.2
  | override | preserve => rfl

theorem merged_again (hmode : mode ≠ .append ∧ mode ≠ .prepend) (x a' : ConfigArray) :
    (x.merged mode a').merged mode a' = x.merged mode a' ∧ a'.merged mode a' = a' := by
  constructor
  · cases x <;> cases a' <;>
      first
      | exact congrArg _ (mergeArrays_again hmode _ _)
      | exact congrArg _ (mergeArrays_self hmode _)
  · cases a' <;> exact congrArg _ (mergeArrays_self hmode _)

theorem size_again (hmode : mode ≠ .append ∧ mode ≠ .prepend) (m n : Nat) :
    mode.size (mode.size m n) n = mode.size m n ∧ mode.size n n = n := by
  cases mode with
  | merge =>
    rw [ArrayMerge.size, ArrayMerge.size, ArrayMerge.size]
    omega
  | append => exact absurd rfl hmode.1
  | prepend => exact absurd rfl hmode.2
  | override | preserve => exact ⟨rfl, rfl⟩

/-- The value of a merge is not changed by the next one. -/
theorem lawValue_again (hmode : mode ≠ .append ∧ mode ≠ .prepend)
    (h : t.seenValue = lawValue mode a b) : lawValue mode t b = t.seenValue := by
  cases b with
  | unset d => cases t <;> rfl
  | scalar d v =>
    rw [h]
    cases t <;> cases a <;> rfl
  | map d m =>
    rw [h]
    cases t <;> cases a <;> rfl
  | array d a' =>
    cases t with
    | array d₁ x =>
      have hx : (∃ x₀ : ConfigArray, x = x₀.merged mode a') ∨ x = a' := by
        cases a with
        | array d₀ x₀ => exact .inl ⟨x₀, SeenValue.array.inj h⟩
        | _ => exact .inr (SeenValue.array.inj h)
      refine congrArg SeenValue.array ?_
      rcases hx with ⟨x₀, rfl⟩ | rfl
      · exact (merged_again hmode x₀ a').1
      · exact (merged_again hmode x x).2
    | _ => cases a <;> cases h
  | trees d items' =>
    cases t with
    | trees d₁ items =>
      have hsize : (∃ m, items.size = mode.size m items'.size) ∨ items.size = items'.size := by
        cases a with
        | trees d₀ items₀ => exact .inl ⟨items₀.size, SeenValue.trees.inj h⟩
        | _ => exact .inr (SeenValue.trees.inj h)
      refine congrArg SeenValue.trees ?_
      rcases hsize with ⟨m, hm⟩ | hm
      · rw [hm]
        exact (size_again hmode m _).1
      · rw [hm]
        exact (size_again hmode 0 _).2
    | _ => cases a <;> cases h

theorem source_unset (mode : ArrayMerge) (t : ConfigTreeValue) (d : Option ConfigScalar)
    (e : Edge) : source mode t (unset d) e = (t.child e).map .one := by
  cases t <;> cases e <;> rfl

theorem source_scalar (mode : ArrayMerge) (t : ConfigTreeValue) (d : Option ConfigScalar)
    (v : ConfigScalar) (e : Edge) : source mode t (scalar d v) e = none := by
  cases t <;> cases e <;> rfl

theorem source_array (mode : ArrayMerge) (t : ConfigTreeValue) (d : Option ConfigScalar)
    (a : ConfigArray) (e : Edge) : source mode t (array d a) e = none := by
  cases t <;> cases e <;> rfl

theorem source_map (mode : ArrayMerge) (t : ConfigTreeValue) (d : Option ConfigScalar)
    (m : Keyed String ConfigTreeValue) (k : String) :
    ∃ x, source mode t (map d m) (.key k) = Source.pair x (m.find k) := by
  cases t with
  | map d₀ m₀ => exact ⟨m₀.find k, rfl⟩
  | _ => exact ⟨none, by rw [Source.pair_none]; rfl⟩

theorem source_trees_merge (t : ConfigTreeValue) (d : Option ConfigScalar)
    (items : Items ConfigTreeValue) (i : Nat) :
    ∃ x, source .merge t (trees d items) (.index i) = Source.pair x (items.find i) := by
  cases t with
  | trees d₀ items₀ => exact ⟨items₀.find i, rfl⟩
  | _ => exact ⟨none, by rw [Source.pair_none]; rfl⟩

theorem source_trees_override (t : ConfigTreeValue) (d : Option ConfigScalar)
    (items : Items ConfigTreeValue) (i : Nat) :
    source .override t (trees d items) (.index i) = (items.find i).map .one := by
  cases t <;> rfl

/-- A node of the other tree is merged into the one that is there, if there is one. -/
theorem merged_into {x t : Option ConfigTreeValue} {c' : ConfigTreeValue}
    (h : Comes mode (Source.pair x (some c')) t) : ∃ c x, t = some c ∧ merge mode x c' = .ok c := by
  cases x with
  | none => exact ⟨c', fresh, h, merge_of_not_set rfl c'⟩
  | some x =>
    obtain ⟨c, hc, ht⟩ := h
    exact ⟨c, x, ht, hc⟩

/-- Nodes that the next merge does not change. -/
theorem comes_again {c : Option ConfigTreeValue} (o : Option ConfigTreeValue)
    (h : ∀ c', o = some c' → ∃ u, c = some u ∧ merge mode u c' = .ok u) :
    Comes mode (Source.pair c o) c := by
  cases o with
  | none => cases c <;> rfl
  | some c' =>
    obtain ⟨u, rfl, hu⟩ := h c' rfl
    exact ⟨u, hu, rfl⟩

/-- A merge that is made again changes nothing, if it changes none of the nodes below. -/
theorem merge_of_comes (hmode : mode ≠ .append ∧ mode ≠ .prepend) (h : merge mode a b = .ok t)
    (hcomes : ∀ e, Comes mode (source mode t b e) (t.child e)) : merge mode t b = .ok t := by
  have hmerged := merged_of_merge h
  have hvalue : t.seenValue = lawValue mode a b := congrArg Seen.value hmerged.seen
  have hdefault : t.default_ = b.default_.or a.default_ := congrArg Seen.default_ hmerged.seen
  have hseen : t.seen = lawSeen mode t b := by
    rw [lawSeen, lawValue_again hmode hvalue, hdefault, ← Option.or_assoc, Option.or_self,
      ← hdefault]
    rfl
  obtain ⟨t', ht', hmerged'⟩ := merge_ok mode t b
  rw [ht', merged_unique hmerged' ⟨hseen, hcomes⟩]

/-- **The same merge again** changes nothing, by induction on the tree that is merged. -/
theorem merge_again (hmode : mode ≠ .append ∧ mode ≠ .prepend) :
    ∀ {a t}, merge mode a b = .ok t → merge mode t b = .ok t := by
  induction b with
  | unset d =>
    intro a t h
    refine merge_of_comes hmode h fun e => ?_
    rw [source_unset]
    exact comes_one mode _
  | scalar d v =>
    intro a t h
    refine merge_of_comes hmode h fun e => ?_
    have hchild := (merged_of_merge h).child e
    rw [source_scalar] at hchild
    rw [source_scalar, hchild]
    rfl
  | array d a' =>
    intro a t h
    refine merge_of_comes hmode h fun e => ?_
    have hchild := (merged_of_merge h).child e
    rw [source_array] at hchild
    rw [source_array, hchild]
    rfl
  | trees d items' ih =>
    intro a t h
    refine merge_of_comes hmode h fun e => ?_
    have hmerged := merged_of_merge h
    have hvalue : t.seenValue = lawValue mode a (trees d items') :=
      congrArg Seen.value hmerged.seen
    cases t with
    | trees d₁ items =>
      cases e with
      | key k => rfl
      | index i =>
        have hchild := hmerged.child (.index i)
        rw [source]
        cases mode with
        | merge =>
          refine comes_again _ fun c' hc' => ?_
          obtain ⟨x, hx⟩ := source_trees_merge a d items' i
          rw [hx, hc'] at hchild
          obtain ⟨u, x, hu, hmerge⟩ := merged_into hchild
          obtain ⟨hi, rfl⟩ := Items.find_eq_some_iff.mp hc'
          exact ⟨u, hu, ih _ hmerge⟩
        | append => exact absurd rfl hmode.1
        | prepend => exact absurd rfl hmode.2
        | override =>
          rw [source_trees_override] at hchild
          exact hchild
        | preserve => exact comes_one _ _
    | _ => cases a <;> cases hvalue
  | map d m' ih =>
    intro a t h
    refine merge_of_comes hmode h fun e => ?_
    have hmerged := merged_of_merge h
    have hvalue : t.seenValue = .map := (congrArg Seen.value hmerged.seen).trans (by cases a <;> rfl)
    cases t with
    | map d₁ m =>
      cases e with
      | index i => rfl
      | key k =>
        refine comes_again _ fun c' hc' => ?_
        have hchild := hmerged.child (.key k)
        obtain ⟨x, hx⟩ := source_map mode a d m' k
        rw [hx, hc'] at hchild
        obtain ⟨u, x, hu, hmerge⟩ := merged_into hchild
        obtain ⟨hk, rfl⟩ := Keyed.find_eq_some_iff.mp hc'
        exact ⟨u, hu, ih _ hmerge⟩
    | _ => cases hvalue

/-! ### Merging at a path -/

theorem at_of_resolve (p : List String) : ∀ {t : ConfigTreeValue} {place : List Edge}
    {c : ConfigTreeValue}, "" ∉ p → t.resolve p = some (place, c) → t.at_ place = some c := by
  induction p with
  | nil =>
    intro t place c _ h
    cases h
    rfl
  | cons s p ih =>
    intro t place c hp h
    obtain ⟨hs, hp⟩ := ne_of_not_mem hp
    cases hstep : t.step s with
    | error error =>
      rw [resolve_cons_error hs hstep] at h
      cases h
    | ok r =>
      obtain ⟨e, d⟩ := r
      rw [resolve_cons_ok hs hstep] at h
      obtain ⟨⟨place', c'⟩, hr, heq⟩ := Option.map_eq_some_iff.mp h
      cases heq
      rw [at_, (step_ok hstep).1]
      exact ih hp hr

theorem seenAt_replaceAt (place q : List Edge) (c' : ConfigTreeValue) : ∀ {t c},
    t.at_ place = some c → (replaceAt c' place t).seenAt (place ++ q) = c'.seenAt q := by
  induction place with
  | nil => exact fun _ => rfl
  | cons e place ih =>
    intro t c h
    rw [at_] at h
    obtain ⟨d, hd, hat⟩ := Option.bind_eq_some_iff.mp h
    rw [replaceAt, hd, List.cons_append, seenAt_cons]
    dsimp only
    rw [child_setChild_self (hd ▸ rfl)]
    exact ih hat

theorem seen_setChild (t : ConfigTreeValue) (e : Edge) (c : ConfigTreeValue) :
    (t.setChild e c).seen = t.seen := by
  cases t <;> cases e <;> rfl

/-- Replacing a node changes nothing that is not below its place. -/
theorem seenAt_replaceAt_of_not_prefix (place : List Edge) (c' : ConfigTreeValue) : ∀ {t q},
    ¬ place <+: q → (replaceAt c' place t).seenAt q = t.seenAt q := by
  induction place with
  | nil => exact fun h => absurd List.nil_prefix h
  | cons e place ih =>
    intro t q h
    rw [replaceAt]
    cases hd : t.child e with
    | none => rfl
    | some d =>
      dsimp only
      cases q with
      | nil => exact congrArg some (seen_setChild _ _ _)
      | cons e' q =>
        rw [seenAt_cons, seenAt_cons]
        by_cases he : e' = e
        · rw [he, child_setChild_self (hd ▸ rfl), hd]
          exact ih fun hq => h (List.cons_prefix_cons.mpr ⟨he.symm, hq⟩)
        · rw [child_setChild_of_ne he]

/-- **A merge at a path** succeeds if the path is outside of no array: what is seen below its place
is the merge of what is there, when the path is created, and nothing else is changed. -/
theorem mergeAt_ok (mode : ArrayMerge) {root : List String} (hroot : "" ∉ root)
    (a b : ConfigTreeValue) (hout : ¬ a.Outside root) :
    ∃ place c t, (a.create root).1.resolve root = some (place, c) ∧
      a.mergeAt mode root b = (t, none) ∧
      (∀ q, t.seenAt (place ++ q) = lawAt mode c b q) ∧
      ∀ q, ¬ place <+: q → t.seenAt q = (a.create root).1.seenAt q := by
  obtain ⟨place, c, hok, hresolve⟩ := create_resolves root hroot hout
  have hat := at_of_resolve root hroot hresolve
  obtain ⟨c', hmerge, -⟩ := merge_ok mode c b
  refine ⟨place, c, replaceAt c' place (a.create root).1, hresolve, ?_, fun q => ?_, fun q hq => ?_⟩
  · rw [mergeAt, ← Prod.mk.eta (p := a.create root), hok]
    dsimp only
    rw [hat, Option.getD_some, hmerge]
  · rw [seenAt_replaceAt place q c' hat, seenAt_merge q hmerge]
  · exact seenAt_replaceAt_of_not_prefix place c' hq

theorem mergeAt_root (h : merge mode a b = .ok t) : a.mergeAt mode [] b = (t, none) := by
  have hcreate : a.create [] = (a, .ok []) := rfl
  rw [mergeAt, hcreate]
  dsimp only
  rw [show a.at_ [] = some a from rfl, Option.getD_some, h]
  rfl

/-- **The merge law.** -/
theorem merge_law (mode : ArrayMerge) (a b : ConfigTreeValue) :
    ∃ t, a.mergeAt mode [] b = (t, none) ∧ (∀ place, t.seenAt place = lawAt mode a b place) ∧
      (b.isSetOrDefault = false → t = a) ∧
      (mode ≠ .append ∧ mode ≠ .prepend → t.mergeAt mode [] b = (t, none)) := by
  obtain ⟨t, ht, -⟩ := merge_ok mode a b
  refine ⟨t, mergeAt_root ht, fun place => seenAt_merge place ht, fun hb => ?_, fun hmode => ?_⟩
  · cases ht.symm.trans (merge_not_set hb)
    rfl
  · exact mergeAt_root (merge_again hmode ht)

end ConfigTreeValue

end Hatn.Base
