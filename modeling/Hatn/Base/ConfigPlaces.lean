import Hatn.Base.ConfigTree
import Hatn.Order.Folds

/-!
# Merges at a place

A tree that is merged at a place of another tree.  Its values are found below that place, and
values elsewhere, or below the place where the tree does not touch them, stay.
-/

namespace Hatn.Base

/-- The paths part at two keys of a map or at two items of an array. -/
def Apart : ConfigTreePath → ConfigTreePath → Prop
  | .key k :: q, .key k' :: p => k ≠ k' ∨ Apart q p
  | .item i :: q, .item i' :: p => i ≠ i' ∨ Apart q p
  | _, _ => False

/-- Of two paths in one tree, where one goes to a value and the other one does not lead behind
it, the other one is above or they part. -/
theorem ConfigTree.leadsTo.apart_or {q : ConfigTreePath} {s : Section} : ∀ {t : ConfigTree}
    {p : ConfigTreePath} {v : Scalar}, t.leadsTo (q ++ [s]) → t.valueAt p = some v →
      Apart q p ∨ q <+: p := by
  induction q with
  | nil => exact fun _ _ => .inr (List.nil_prefix ..)
  | cons s' q ih =>
    intro t p v hq hv
    cases t with
    | unset | scalar v' | array type values => cases s' <;> cases hq
    | trees size item =>
      cases s' with
      | key k | element i => cases hq
      | item i =>
        cases p with
        | nil => cases hv
        | cons s' p =>
          obtain ⟨j, rfl, hj, hjv⟩ := valueAt_trees_eq_some hv
          by_cases hij : i = j
          · subst hij
            exact (ih hq.2 hjv).imp .inr fun h => (List.cons_prefix_cons).mpr ⟨rfl, h⟩
          · exact .inl (.inl hij)
    | map keys entry =>
      cases s' with
      | item i | element i => cases hq
      | key k =>
        cases p with
        | nil => cases hv
        | cons s' p =>
          obtain ⟨j, rfl, hj, hjv⟩ := valueAt_map_eq_some hv
          by_cases hij : k = j
          · subst hij
            exact (ih hq.2 hjv).imp .inr fun h => (List.cons_prefix_cons).mpr ⟨rfl, h⟩
          · exact .inl (.inl hij)

/-- A tree that is merged at the place has nothing for the path. -/
def Spares (q : ConfigTreePath) (n : ConfigTree) (p : ConfigTreePath) : Prop :=
  Apart q p ∨ ∃ r, p = q ++ r ∧ n.touches r = false

/-- A tree that is merged at the place leaves the way to another place. -/
def KeepsWay (q' : ConfigTreePath) (n : ConfigTree) (q : ConfigTreePath) : Prop :=
  Apart q' q ∨ q <+: q' ∨ ∃ r, q = q' ++ r ∧ n.cuts r = false

theorem ConfigTree.leadsTo.element_not_mem {q : ConfigTreePath} : ∀ {t : ConfigTree},
    t.leadsTo q → ∀ i, .element i ∉ q := by
  induction q with
  | nil => exact fun _ _ => List.not_mem_nil
  | cons s q ih =>
    intro t h i hmem
    cases t with
    | unset | scalar v | array type values => cases s <;> cases h
    | trees size item =>
      cases s with
      | key k | element i => cases h
      | item j => exact ih h.2 i ((List.mem_cons.mp hmem).resolve_left nofun)
    | map keys entry =>
      cases s with
      | item j | element i => cases h
      | key k => exact ih h.2 i ((List.mem_cons.mp hmem).resolve_left nofun)

theorem ConfigTree.leadsTo.of_append {q r : ConfigTreePath} : ∀ {t : ConfigTree},
    t.leadsTo (q ++ r) → t.leadsTo q := by
  induction q with
  | nil => exact fun _ => trivial
  | cons s q ih =>
    intro t h
    cases t with
    | unset | scalar v | array type values => cases s <;> cases h
    | trees size item =>
      cases s with
      | key k | element i => cases h
      | item j => exact ⟨h.1, ih h.2⟩
    | map keys entry =>
      cases s with
      | item j | element i => cases h
      | key k => exact ⟨h.1, ih h.2⟩

namespace ConfigTree

variable {ε : Type} {e : ε} {f : ConfigTree → ConfigTree} {t t' : ConfigTree}
  {q r p : ConfigTreePath} {v : Scalar}

/-- What a change below a map or an array of trees leaves: a map or an array with one
entry changed, where the section names one, or else a new map. -/
theorem modifyAt_cons {s : Section} (h : modifyAt e f (s :: q) t = .ok t') :
    (∃ keys entry u, t = map keys entry ∧
      modifyAt e f q (if s.text ∈ keys then entry s.text else unset) = .ok u ∧
        t' = map (if s.text ∈ keys then keys else keys ++ [s.text])
          (Function.update entry s.text u)) ∨
    (∃ size item i u, t = trees size item ∧ s.number = some i ∧ i < size ∧
      modifyAt e f q (item i) = .ok u ∧ t' = trees size (Function.update item i u)) ∨
    ((∀ keys entry, t ≠ map keys entry) ∧ (∀ size item, t = trees size item → s.number = none) ∧
      ∃ u, modifyAt e f q unset = .ok u ∧ t' = map [s.text] fun _ => u) := by
  cases t with
  | unset | scalar v | array type values =>
    obtain ⟨u, hu, hut⟩ := Order.map_eq_ok h
    exact .inr (.inr ⟨nofun, nofun, u, hu, hut.symm⟩)
  | map keys entry =>
    obtain ⟨u, hu, hut⟩ := Order.map_eq_ok h
    exact .inl ⟨keys, entry, u, rfl, hu, hut.symm⟩
  | trees size item =>
    rw [modifyAt] at h
    split at h
    · rename_i i hi
      split at h
      · rename_i hlt
        obtain ⟨u, hu, hut⟩ := Order.map_eq_ok h
        exact .inr (.inl ⟨size, item, i, u, rfl, hi, hlt, hu, hut.symm⟩)
      · cases h
    · rename_i hnone
      obtain ⟨u, hu, hut⟩ := Order.map_eq_ok h
      refine .inr (.inr ⟨nofun, fun _ _ _ => hnone, u, hu, hut.symm⟩)

theorem modifyAt_map {s : Section} {keys : List String} {entry : String → ConfigTree}
    (h : modifyAt e f (s :: q) (map keys entry) = .ok t') : ∃ u,
      modifyAt e f q (if s.text ∈ keys then entry s.text else unset) = .ok u ∧
        t' = map (if s.text ∈ keys then keys else keys ++ [s.text])
          (Function.update entry s.text u) := by
  obtain ⟨u, hu, hut⟩ := Order.map_eq_ok h
  exact ⟨u, hu, hut.symm⟩

theorem modifyAt_item {i size : Nat} {item : Nat → ConfigTree}
    (h : modifyAt e f (.item i :: q) (trees size item) = .ok t') :
    ∃ u, modifyAt e f q (item i) = .ok u ∧ t' = trees size (Function.update item i u) := by
  change (if i < size then _ else _) = _ at h
  split at h
  · obtain ⟨u, hu, hut⟩ := Order.map_eq_ok h
    exact ⟨u, hu, hut.symm⟩
  · cases h

theorem mem_updated_keys {keys : List String} {k k' : String} (h : k' ∈ keys) :
    k' ∈ if k ∈ keys then keys else keys ++ [k] := by
  split
  · exact h
  · exact List.mem_append_left _ h

theorem self_mem_updated_keys {keys : List String} {k : String} :
    k ∈ if k ∈ keys then keys else keys ++ [k] := by
  split
  · assumption
  · exact List.mem_append_right _ (.head _)

/-- **Values elsewhere** stay. -/
theorem valueAt_modifyAt_apart (h : Apart q p) (hv : t.valueAt p = some v)
    (hm : modifyAt e f q t = .ok t') : t'.valueAt p = some v := by
  induction q generalizing t t' p with
  | nil => cases p <;> cases h
  | cons s q ih =>
    cases p with
    | nil => cases s <;> cases h
    | cons s' p =>
      cases t with
      | unset | scalar v' => cases hv
      | array type values =>
        obtain ⟨i, rfl, rfl, -⟩ := valueAt_array_eq_some hv
        cases s <;> cases h
      | trees size item =>
        obtain ⟨j, rfl, hj, hjv⟩ := valueAt_trees_eq_some hv
        cases s with
        | key k | element i => cases h
        | item i =>
          obtain ⟨u, hu, rfl⟩ := modifyAt_item hm
          refine (if_pos hj).trans ?_
          by_cases hij : j = i
          · subst hij
            rw [Function.update_self]
            exact ih (h.resolve_left (fun h => h rfl)) hjv hu
          · rwa [Function.update_of_ne hij]
      | map keys entry =>
        obtain ⟨j, rfl, hj, hjv⟩ := valueAt_map_eq_some hv
        cases s with
        | item i | element i => cases h
        | key k =>
          obtain ⟨u, hu, rfl⟩ := modifyAt_map hm
          refine (if_pos (mem_updated_keys hj)).trans ?_
          by_cases hjk : j = k
          · subst hjk
            rw [Section.text_key, Function.update_self]
            rw [Section.text_key, if_pos hj] at hu
            exact ih (h.resolve_left (fun h => h rfl)) hjv hu
          · exact (congrArg (valueAt · p) (Function.update_of_ne hjk ..)).trans hjv

/-- Values below the place are those of the changed tree there. -/
theorem valueAt_modifyAt_below (hq : ∀ i, .element i ∉ q)
    (hf : ∀ u, u.valueAt r = some v → (f u).valueAt r = some v)
    (hv : t.valueAt (q ++ r) = some v)
    (hm : modifyAt e f q t = .ok t') : t'.valueAt (q ++ r) = some v := by
  induction q generalizing t t' with
  | nil =>
    cases hm
    exact hf t hv
  | cons s q ih =>
    cases t with
    | unset | scalar v' => cases hv
    | array type values =>
      obtain ⟨i, rfl, -, -⟩ := valueAt_array_eq_some hv
      exact (hq i (.head _)).elim
    | trees size item =>
      obtain ⟨j, rfl, hj, hjv⟩ := valueAt_trees_eq_some hv
      obtain ⟨u, hu, rfl⟩ := modifyAt_item hm
      refine (if_pos hj).trans ?_
      rw [Function.update_self]
      exact ih (fun i h => hq i (.tail _ h)) hjv hu
    | map keys entry =>
      obtain ⟨k, rfl, hk, hkv⟩ := valueAt_map_eq_some hv
      obtain ⟨u, hu, rfl⟩ := modifyAt_map hm
      refine (if_pos (mem_updated_keys hk)).trans ?_
      rw [Section.text_key, Function.update_self]
      rw [Section.text_key, if_pos hk] at hu
      exact ih (fun i h => hq i (.tail _ h)) hkv hu

/-- **The values of the changed tree** are found below the place. -/
theorem valueAt_modifyAt_self (hf : ∀ u, (f u).valueAt r = some v) (ht : t.leadsTo q)
    (hm : modifyAt e f q t = .ok t') : t'.valueAt (q ++ r) = some v := by
  induction q generalizing t t' with
  | nil =>
    cases hm
    exact hf t
  | cons s q ih =>
    cases t with
    | unset | scalar v' | array type values => cases s <;> cases ht
    | trees size item =>
      cases s with
      | key k | element i => cases ht
      | item i =>
        obtain ⟨u, hu, rfl⟩ := modifyAt_item hm
        refine (if_pos ht.1).trans ?_
        rw [Function.update_self]
        exact ih ht.2 hu
    | map keys entry =>
      cases s with
      | item i | element i => cases ht
      | key k =>
        obtain ⟨u, hu, rfl⟩ := modifyAt_map hm
        refine (if_pos self_mem_updated_keys).trans ?_
        rw [Section.text_key, Function.update_self]
        rw [Section.text_key, if_pos ht.1] at hu
        exact ih ht.2 hu

/-- A change at a place leaves the ways to other places, and to those above it. -/
theorem leadsTo_modifyAt_of_apart (h : Apart q p ∨ p <+: q) (ht : t.leadsTo p)
    (hm : modifyAt e f q t = .ok t') : t'.leadsTo p := by
  induction p generalizing t t' q with
  | nil => trivial
  | cons s' p ih =>
    cases q with
    | nil => exact h.elim (fun h => h.elim) fun h => by simp at h
    | cons s q =>
      cases t with
      | unset | scalar v' | array type values => cases s' <;> cases ht
      | trees size item =>
        cases s' with
        | key k | element i => cases ht
        | item j =>
          obtain ⟨i, rfl, hi⟩ : ∃ i, s = .item i ∧ (i ≠ j ∨ Apart q p ∨ p <+: q) := by
            rcases h with h | h
            · cases s with
              | key k | element i => cases h
              | item i => exact ⟨i, rfl, h.imp_right .inl⟩
            · obtain ⟨rfl, hpre⟩ := List.cons_prefix_cons.mp h
              exact ⟨j, rfl, .inr (.inr hpre)⟩
          obtain ⟨u, hu, rfl⟩ := modifyAt_item hm
          refine ⟨ht.1, ?_⟩
          by_cases hij : j = i
          · subst hij
            rw [Function.update_self]
            exact ih (hi.resolve_left (fun h => h rfl)) ht.2 hu
          · rw [Function.update_of_ne hij]
            exact ht.2
      | map keys entry =>
        cases s' with
        | item i | element i => cases ht
        | key k' =>
          obtain ⟨k, rfl, hk⟩ : ∃ k, s = .key k ∧ (k ≠ k' ∨ Apart q p ∨ p <+: q) := by
            rcases h with h | h
            · cases s with
              | item i | element i => cases h
              | key k => exact ⟨k, rfl, h.imp_right .inl⟩
            · obtain ⟨rfl, hpre⟩ := List.cons_prefix_cons.mp h
              exact ⟨k', rfl, .inr (.inr hpre)⟩
          obtain ⟨u, hu, rfl⟩ := modifyAt_map hm
          refine ⟨mem_updated_keys ht.1, ?_⟩
          by_cases hkk : k' = k
          · subst hkk
            rw [Section.text_key, Function.update_self]
            rw [Section.text_key, if_pos ht.1] at hu
            exact ih (hk.resolve_left (fun h => h rfl)) ht.2 hu
          · rw [Section.text_key, Function.update_of_ne hkk]
            exact ht.2

theorem leadsTo_modifyAt_below (hf : ∀ u, u.leadsTo r → (f u).leadsTo r)
    (ht : t.leadsTo (q ++ r)) (hm : modifyAt e f q t = .ok t') : t'.leadsTo (q ++ r) := by
  induction q generalizing t t' with
  | nil =>
    cases hm
    exact hf t ht
  | cons s q ih =>
    cases t with
    | unset | scalar v' | array type values => cases s <;> cases ht
    | trees size item =>
      cases s with
      | key k | element i => cases ht
      | item i =>
        obtain ⟨u, hu, rfl⟩ := modifyAt_item hm
        refine ⟨ht.1, ?_⟩
        rw [Function.update_self]
        exact ih ht.2 hu
    | map keys entry =>
      cases s with
      | item i | element i => cases ht
      | key k =>
        obtain ⟨u, hu, rfl⟩ := modifyAt_map hm
        refine ⟨self_mem_updated_keys, ?_⟩
        rw [Section.text_key, Function.update_self]
        rw [Section.text_key, if_pos ht.1] at hu
        exact ih ht.2 hu

section

variable {mode : ArrayMerge} {n : ConfigTree}

/-- **A tree that spares a path** leaves the value there. -/
theorem valueAt_mergeAt (h : Spares q n p) (hq : ∀ i, .element i ∉ q) (hv : t.valueAt p = some v)
    (hm : modifyAt e (merge mode · n) q t = .ok t') : t'.valueAt p = some v := by
  rcases h with h | ⟨r, rfl, hr⟩
  · exact valueAt_modifyAt_apart h hv hm
  · exact valueAt_modifyAt_below hq (fun u hu => valueAt_merge_left hu hr) hv hm

theorem leadsTo_mergeAt (h : KeepsWay q n p) (ht : t.leadsTo p)
    (hm : modifyAt e (merge mode · n) q t = .ok t') : t'.leadsTo p := by
  rcases h with h | h | ⟨r, rfl, hr⟩
  · exact leadsTo_modifyAt_of_apart (.inl h) ht hm
  · exact leadsTo_modifyAt_of_apart (.inr h) ht hm
  · exact leadsTo_modifyAt_below (fun u hu => leadsTo_merge_left hu hr) ht hm

end

/-! ### Trees without a tag -/

/-- Nothing is set under the tag, at any map of the tree. -/
def TagFree (tag : String) : ConfigTree → Prop
  | map keys entry => ∀ k ∈ keys, (k = tag → entry k = unset) ∧ (entry k).TagFree tag
  | trees size item => ∀ i < size, (item i).TagFree tag
  | _ => True

variable {tag : String} {mode : ArrayMerge} {current other : ConfigTree}

theorem TagFree.unset : unset.TagFree tag := trivial

theorem TagFree.merge (h : current.TagFree tag) (h' : other.TagFree tag) :
    (merge mode current other).TagFree tag := by
  induction current generalizing other with
  | unset => rwa [merge_unset_left]
  | scalar v =>
    cases other with
    | unset => trivial
    | _ => exact h'
  | array type values =>
    cases other with
    | array type' values' =>
      rw [ConfigTree.merge]
      split <;> trivial
    | unset => trivial
    | _ => exact h'
  | trees size item ih =>
    cases other with
    | unset => exact h
    | trees size' item' =>
      cases mode with
      | merge =>
        intro i hi
        beta_reduce
        split
        · rename_i hlt
          split
          · rename_i hlt'
            exact ih i (h i hlt) (h' i hlt')
          · exact h i hlt
        · rename_i hlt
          exact h' i (by omega)
      | append =>
        intro i hi
        beta_reduce
        split
        · rename_i hlt
          exact h i hlt
        · exact h' _ (by omega)
      | prepend =>
        intro i hi
        beta_reduce
        split
        · rename_i hlt
          exact h' i hlt
        · exact h _ (by omega)
      | override => exact h'
      | preserve => exact h
    | _ => exact h'
  | map keys entry ih =>
    cases other with
    | unset => exact h
    | map keys' entry' =>
      intro k hk
      beta_reduce
      by_cases hin : k ∈ keys
      · rw [if_pos hin]
        split
        · rename_i hin'
          refine ⟨fun htag => ?_, ih k (h k hin).2 (h' k hin').2⟩
          rw [(h k hin).1 htag, (h' k hin').1 htag, merge_unset_left]
        · exact h k hin
      · rw [if_neg hin]
        exact h' k ((mem_merged_keys.mp hk).resolve_left hin)
    | _ => exact h'

/-- A change at a place that does not lead through the tag. -/
theorem TagFree.modifyAt (hf : ∀ u, u.TagFree tag → (f u).TagFree tag)
    (hq : ∀ s ∈ q, s.text ≠ tag) (h : t.TagFree tag) (hm : modifyAt e f q t = .ok t') :
    t'.TagFree tag := by
  induction q generalizing t t' with
  | nil =>
    cases hm
    exact hf t h
  | cons s q ih =>
    have hs : s.text ≠ tag := hq s (.head _)
    have ih' := fun {u u'} => @ih u u' (fun s hs => hq s (.tail _ hs))
    rcases modifyAt_cons hm with ⟨keys, entry, u, rfl, hu, rfl⟩ |
      ⟨size, item, i, u, rfl, -, hi, hu, rfl⟩ | ⟨-, -, u, hu, rfl⟩
    · intro k hk
      by_cases hks : k = s.text
      · subst hks
        rw [Function.update_self]
        refine ⟨fun htag => (hs htag).elim, ih' ?_ hu⟩
        split
        · rename_i hin
          exact (h _ hin).2
        · exact TagFree.unset
      · rw [Function.update_of_ne hks]
        have hk' : k ∈ keys := by
          split at hk
          · exact hk
          · exact (List.mem_append.mp hk).resolve_right fun h => hks (List.mem_singleton.mp h)
        exact h k hk'
    · intro j hj
      by_cases hij : j = i
      · subst hij
        rw [Function.update_self]
        exact ih' (h j hi) hu
      · rw [Function.update_of_ne hij]
        exact h j hj
    · intro k hk
      rw [List.mem_singleton.mp hk]
      exact ⟨fun htag => (hs htag).elim, ih' TagFree.unset hu⟩

end ConfigTree

end Hatn.Base
