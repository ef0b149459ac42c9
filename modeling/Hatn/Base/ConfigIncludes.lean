import Hatn.Base.ConfigRuns

/-!
# Which value a configuration has

The trees of a file's includes and its own one lie over each other: the plain includes in their
order, the file's own tree, the extending includes in their order, and the nested ones by their
places.  A value of one of them is the loaded one unless what lies over it touches its path.
-/

namespace Hatn.Base

open Hatn.Order ConfigTree

/-! ### The tree without its tags -/

section

variable {tag : String} {nested : Bool} {t : ConfigTree} {p q : ConfigTreePath} {v : Scalar}

theorem valueAt_resetTags (hv : t.valueAt p = some v) (hp : ∀ s ∈ p, s.text ≠ tag) :
    (resetTags tag nested t).valueAt p = some v := by
  induction p generalizing t nested with
  | nil =>
    cases t with
    | scalar v' => exact hv
    | _ => cases hv
  | cons s p ih =>
    have hs : s.text ≠ tag := hp s (.head _)
    cases t with
    | unset | scalar v' => cases hv
    | array type values => exact hv
    | trees size item =>
      obtain ⟨i, rfl, hi, hiv⟩ := valueAt_trees_eq_some hv
      refine (if_pos hi).trans ?_
      beta_reduce
      rw [if_neg fun h => hs h.1]
      exact ih hiv fun s hs => hp s (.tail _ hs)
    | map keys entry =>
      obtain ⟨k, rfl, hk, hkv⟩ := valueAt_map_eq_some hv
      refine (if_pos hk).trans ?_
      beta_reduce
      rw [if_neg fun h => hs h.1]
      exact ih hkv fun s hs => hp s (.tail _ hs)

theorem leadsTo_resetTags (ht : t.leadsTo q) (hq : ∀ s ∈ q, s.text ≠ tag) :
    (resetTags tag nested t).leadsTo q := by
  induction q generalizing t nested with
  | nil => trivial
  | cons s q ih =>
    have hs : s.text ≠ tag := hq s (.head _)
    cases t with
    | unset | scalar v' | array type values => cases s <;> cases ht
    | trees size item =>
      cases s with
      | key k | element i => cases ht
      | item i =>
        refine ⟨ht.1, ?_⟩
        beta_reduce
        rw [if_neg fun h => hs h.1]
        exact ih ht.2 fun s hs => hq s (.tail _ hs)
    | map keys entry =>
      cases s with
      | item i | element i => cases ht
      | key k =>
        refine ⟨ht.1, ?_⟩
        beta_reduce
        rw [if_neg fun h => hs h.1]
        exact ih ht.2 fun s hs => hq s (.tail _ hs)

theorem touches_resetTags (h : t.touches p = false) :
    (resetTags tag nested t).touches p = false := by
  induction p generalizing t nested with
  | nil =>
    cases t with
    | unset => rfl
    | _ => cases h
  | cons s p ih =>
    cases t with
    | unset => rfl
    | scalar v' | array type values | trees size item => cases h
    | map keys entry =>
      cases s with
      | item i | element i => cases h
      | key k =>
        refine Bool.and_eq_false_iff.mpr ((Bool.and_eq_false_iff.mp h).imp_right fun h => ?_)
        beta_reduce
        split
        · exact touches_unset
        · exact ih h

theorem valueAt_removeTag (hv : t.valueAt p = some v) (hp : ∀ s ∈ p, s.text ≠ tag) :
    (removeTag tag t).valueAt p = some v := by
  cases t with
  | map keys entry =>
    cases p with
    | nil => cases hv
    | cons s p =>
      obtain ⟨k, rfl, hk, hkv⟩ := valueAt_map_eq_some hv
      exact (if_pos (List.mem_filter.mpr ⟨hk, by simpa using hp _ (.head _)⟩)).trans hkv
  | _ => exact hv

theorem leadsTo_removeTag (ht : t.leadsTo q) (hq : ∀ s ∈ q, s.text ≠ tag) :
    (removeTag tag t).leadsTo q := by
  cases t with
  | map keys entry =>
    cases q with
    | nil => trivial
    | cons s q =>
      cases s with
      | item i | element i => cases ht
      | key k => exact ⟨List.mem_filter.mpr ⟨ht.1, by simpa using hq _ (.head _)⟩, ht.2⟩
  | _ => exact ht

theorem touches_removeTag (h : t.touches p = false) : (removeTag tag t).touches p = false := by
  cases t with
  | map keys entry =>
    cases p with
    | nil => cases h
    | cons s p =>
      cases s with
      | item i | element i => cases h
      | key k =>
        refine Bool.and_eq_false_iff.mpr ((Bool.and_eq_false_iff.mp h).imp_left fun h => ?_)
        exact decide_eq_false fun hk => of_decide_eq_false h (List.mem_of_mem_filter hk)
  | _ => exact h

theorem tagFree_resetTags : (resetTags tag true t).TagFree tag := by
  induction t with
  | unset | scalar v | array type values => trivial
  | trees size item ih =>
    intro i hi
    beta_reduce
    split
    · exact TagFree.unset
    · exact ih i
  | map keys entry ih =>
    intro k hk
    beta_reduce
    by_cases hkt : k = tag
    · rw [if_pos ⟨hkt, rfl⟩]
      exact ⟨fun _ => rfl, TagFree.unset⟩
    · rw [if_neg fun h => hkt h.1]
      exact ⟨fun h => (hkt h).elim, ih k⟩

end

namespace ConfigTreeLoader

variable {loader : ConfigTreeLoader} {found : FoundIncludes} {own : ConfigTree}
  {p q : ConfigTreePath} {v : Scalar}

theorem valueAt_withoutTags (hv : own.valueAt p = some v)
    (hp : ∀ s ∈ p, s.text ≠ loader.includeTag) :
    (loader.withoutTags found own).valueAt p = some v := by
  rw [withoutTags]
  split
  · exact valueAt_resetTags hv hp
  · exact valueAt_removeTag (valueAt_resetTags hv hp) hp

theorem leadsTo_withoutTags (hq : own.leadsTo q) (h : ∀ s ∈ q, s.text ≠ loader.includeTag) :
    (loader.withoutTags found own).leadsTo q := by
  rw [withoutTags]
  split
  · exact leadsTo_resetTags hq h
  · exact leadsTo_removeTag (leadsTo_resetTags hq h) h

theorem touches_withoutTags (h : own.touches p = false) :
    (loader.withoutTags found own).touches p = false := by
  rw [withoutTags]
  split
  · exact touches_resetTags h
  · exact touches_removeTag (touches_resetTags h)

theorem tagFree_withoutTags
    (h : ∀ keys entry, own = .map keys entry → loader.includeTag ∈ keys → found.top ≠ []) :
    (loader.withoutTags found own).TagFree loader.includeTag := by
  cases own with
  | unset | scalar v | array type values =>
    rw [withoutTags]
    split <;> trivial
  | trees size item =>
    have hreset : (resetTags loader.includeTag false (.trees size item)).TagFree
        loader.includeTag := by
      intro i _
      beta_reduce
      split
      · exact TagFree.unset
      · exact tagFree_resetTags
    rw [withoutTags]
    split <;> exact hreset
  | map keys entry =>
    have hentry : ∀ k, k ≠ loader.includeTag → (k = loader.includeTag →
        (if k = loader.includeTag ∧ false = true then ConfigTree.unset
          else resetTags loader.includeTag true (entry k)) = .unset) ∧
        (if k = loader.includeTag ∧ false = true then ConfigTree.unset
          else resetTags loader.includeTag true (entry k)).TagFree loader.includeTag := by
      intro k hk
      rw [if_neg fun h => hk h.1]
      exact ⟨fun h => (hk h).elim, tagFree_resetTags⟩
    rw [withoutTags]
    split
    · rename_i htop
      intro k hk
      exact hentry k fun hkt => h keys entry rfl (hkt ▸ hk) htop
    · intro k hk
      exact hentry k (by simpa using (List.mem_filter.mp hk).2)

/-! ### Where includes are found -/

theorem taggedNodes_leadsTo {tag : String} {t : ConfigTree} {path : ConfigTreePath}
    {d : ConfigTreePath × ConfigTree} (hd : d ∈ taggedNodes tag path t) :
    ∃ q s, d.1 = path ++ (q ++ [s]) ∧ t.leadsTo (q ++ [s]) := by
  induction t generalizing path with
  | unset | scalar v | array type values => cases hd
  | trees size item ih =>
    obtain ⟨i, hi, hd⟩ := List.mem_flatMap.mp hd
    rcases List.mem_append.mp hd with hd | hd
    · split at hd
      · rw [List.mem_singleton.mp hd]
        exact ⟨[], .item i, rfl, List.mem_range.mp hi, trivial⟩
      · cases hd
    · split at hd
      · cases hd
      · obtain ⟨q, s, hq, hs⟩ := ih i hd
        exact ⟨.item i :: q, s, by simpa using hq, List.mem_range.mp hi, hs⟩
  | map keys entry ih =>
    obtain ⟨k, hk, hd⟩ := List.mem_flatMap.mp hd
    rcases List.mem_append.mp hd with hd | hd
    · split at hd
      · rw [List.mem_singleton.mp hd]
        exact ⟨[], .key k, rfl, hk, trivial⟩
      · cases hd
    · split at hd
      · cases hd
      · obtain ⟨q, s, hq, hs⟩ := ih k hd
        exact ⟨.key k :: q, s, by simpa using hq, hk, hs⟩

theorem mem_setNested {includes : List ConfigTreeInclude}
    {l : List (ConfigTreePath × List ConfigTreeInclude)}
    {d : ConfigTreePath × List ConfigTreeInclude} (hd : d ∈ setNested q includes l) :
    d.1 = q ∨ d.1 ∈ l.map Prod.fst := by
  induction l with
  | nil => exact .inl (congrArg Prod.fst (List.mem_singleton.mp hd))
  | cons d' l ih =>
    rw [setNested] at hd
    split at hd
    · rcases List.mem_cons.mp hd with rfl | hd
      · exact .inl rfl
      · exact .inr (List.mem_map_of_mem hd)
    · split at hd
      · rcases List.mem_cons.mp hd with rfl | hd
        · exact .inr (.head _)
        · exact (ih hd).imp_right (.tail _)
      · rcases List.mem_cons.mp hd with rfl | hd
        · exact .inr (.head _)
        · exact .inr (.tail _ (List.mem_map_of_mem hd))

/-- The places of nested includes are there in the file's own tree. -/
theorem leadsTo_of_findIncludes {filename : String}
    (h : loader.findIncludes filename own = .ok found) :
    ∀ d ∈ found.nested, ∃ s, own.leadsTo (d.1 ++ [s]) := by
  refine foldlM_keeps (I := fun found : FoundIncludes => ∀ d ∈ found.nested,
    ∃ s, own.leadsTo (d.1 ++ [s])) (fun d hd found found' hfound hstep => ?_)
    (fun _ hd => (List.not_mem_nil hd).elim) h
  obtain ⟨q, s, hq, hs⟩ := taggedNodes_leadsTo hd
  obtain ⟨path, value⟩ := d
  rw [keysHandler] at hstep
  obtain ⟨includes, -, rfl⟩ := map_eq_ok hstep
  split
  · intro d hd
    rcases mem_setNested hd with hd | hd
    · refine ⟨s, ?_⟩
      rw [hd, show path = q ++ [s] from hq, List.dropLast_concat]
      exact hs
    · obtain ⟨d', hd', hdd⟩ := List.mem_map.mp hd
      exact hdd ▸ hfound d' hd'
  · exact hfound

theorem leadsTo_of_mem_places {filename : String}
    (h : loader.findIncludes filename own = .ok found) {d : ConfigTreePath × ConfigTreeInclude}
    (hd : d ∈ found.places) : ∃ s, own.leadsTo (d.1 ++ [s]) := by
  obtain ⟨it, hit, hd⟩ := List.mem_flatMap.mp hd
  obtain ⟨it1, -, rfl⟩ := List.mem_map.mp hd
  exact leadsTo_of_findIncludes h it hit

end ConfigTreeLoader

end Hatn.Base
