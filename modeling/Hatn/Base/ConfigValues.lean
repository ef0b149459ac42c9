import Hatn.Base.ConfigIncludes

/-!
# Values of a loaded configuration

The trees of a file's includes and its own one lie over each other: the plain includes in their
order, the file's own tree, the extending includes in their order, and the nested ones by their
places.  A value of one of them is the loaded one unless something over it touches its path.
-/

namespace Hatn.Base

open Hatn.Order ConfigTree

/-! ### Trees over each other -/

section

variable {p q : ConfigTreePath} {v : Scalar} {t : ConfigTree} {it : ConfigTreeInclude}
  {l l₁ l₂ : List ConfigTreeInclude} {tree : ConfigTreeInclude → ConfigTree}

/-- The tree with those of the includes merged into it. -/
def mergeAll (tree : ConfigTreeInclude → ConfigTree) (t : ConfigTree)
    (l : List ConfigTreeInclude) : ConfigTree :=
  l.foldl (fun t it => t.merge it.merge (tree it)) t

theorem valueAt_mergeAll (hl : ∀ it ∈ l, (tree it).touches p = false) (hv : t.valueAt p = some v) :
    (mergeAll tree t l).valueAt p = some v := by
  induction l generalizing t with
  | nil => exact hv
  | cons it l ih =>
    exact ih (fun it hit => hl it (.tail _ hit)) (valueAt_merge_left hv (hl it (.head _)))

theorem valueAt_mergeAll_split (hl : ∀ it ∈ l₂, (tree it).touches p = false)
    (hv : (tree it).valueAt p = some v) (hp : Steady it.merge p) :
    (mergeAll tree t (l₁ ++ it :: l₂)).valueAt p = some v := by
  rw [mergeAll, List.foldl_append]
  change (mergeAll tree ((mergeAll tree t l₁).merge it.merge (tree it)) l₂).valueAt p = some v
  exact valueAt_mergeAll hl (valueAt_merge_right hv hp)

theorem touches_mergeAll (hl : ∀ it ∈ l, (tree it).touches p = false)
    (h : t.touches p = false) : (mergeAll tree t l).touches p = false := by
  induction l generalizing t with
  | nil => exact h
  | cons it l ih =>
    exact ih (fun it hit => hl it (.tail _ hit)) (touches_merge h (hl it (.head _)))

theorem leadsTo_mergeAll (hl : ∀ it ∈ l, (tree it).cuts q = false) (h : t.leadsTo q) :
    (mergeAll tree t l).leadsTo q := by
  induction l generalizing t with
  | nil => exact h
  | cons it l ih =>
    exact ih (fun it hit => hl it (.tail _ hit)) (leadsTo_merge_left h (hl it (.head _)))

theorem tagFree_mergeAll {tag : String} (hl : ∀ it ∈ l, (tree it).TagFree tag)
    (h : t.TagFree tag) : (mergeAll tree t l).TagFree tag := by
  induction l generalizing t with
  | nil => exact h
  | cons it l ih => exact ih (fun it hit => hl it (.tail _ hit)) (h.merge (hl it (.head _)))

theorem valueAt_joined_current {s : TopState} (hv : s.current.valueAt p = some v)
    (hp : Steady s.currentMergeMode p) : s.joined.valueAt p = some v := by
  rw [TopState.joined]
  split
  · exact valueAt_merge_right hv hp
  · exact hv

theorem valueAt_joined_merged {s : TopState} (hv : s.merged.valueAt p = some v)
    (h : s.current.touches p = false) : s.joined.valueAt p = some v := by
  have hset : s.merged.isSet = true := by
    cases hm : s.merged with
    | unset =>
      rw [hm] at hv
      cases p <;> cases hv
    | _ => rfl
  rw [TopState.joined, if_pos hset]
  exact valueAt_merge_left hv h

theorem leadsTo_joined {s : TopState} (h : s.current.leadsTo q)
    (hq : Steady s.currentMergeMode q) : s.joined.leadsTo q := by
  rw [TopState.joined]
  split
  · exact leadsTo_merge_right h hq
  · exact h

/-- What an include has given. -/
def givenTree (load : ConfigTreeInclude → Except LoadError ConfigTree)
    (it : ConfigTreeInclude) : ConfigTree :=
  match load it with
  | .ok t => t
  | .error _ => .unset

theorem givenTree_eq {load : ConfigTreeInclude → Except LoadError ConfigTree} {n : ConfigTree}
    (h : load it = .ok n) : givenTree load it = n := by
  rw [givenTree, h]

/-- The loop over the top includes merges the plain ones into one tree and the extending ones into
the other. -/
theorem mergeTop_loop {load : ConfigTreeInclude → Except LoadError ConfigTree}
    {s s' : TopState} (h : l.foldlM (mergeTop load) s = .ok s') :
    s'.merged = mergeAll (givenTree load) s.merged
        (l.filter fun it => decide (it.file ≠ "") && !it.extend) ∧
      s'.current = mergeAll (givenTree load) s.current
        (l.filter fun it => decide (it.file ≠ "") && it.extend) ∧
      s'.currentMergeMode =
        l.foldl (fun mode it => if it.file = "" then it.merge else mode) s.currentMergeMode := by
  induction l generalizing s with
  | nil =>
    cases h
    exact ⟨rfl, rfl, rfl⟩
  | cons it l ih =>
    obtain ⟨u, hu, h⟩ := foldlM_cons_eq_ok h
    obtain ⟨hmerged, hcurrent, hmode⟩ := ih h
    rw [hmerged, hcurrent, hmode, List.filter_cons, List.filter_cons, List.foldl_cons]
    rw [mergeTop] at hu
    by_cases hfile : it.file = ""
    · rw [if_pos hfile] at hu
      cases hu
      simp [hfile]
    · rw [if_neg hfile] at hu
      obtain ⟨n, hn, rfl⟩ := map_eq_ok hu
      cases hext : it.extend with
      | true => simp [hfile, mergeAll, givenTree_eq hn]
      | false => simp [hfile, mergeAll, givenTree_eq hn]

end

namespace ConfigTreeLoader

section

variable (loader : ConfigTreeLoader) (files : ConfigFiles) (chain : List String)

/-- None of the includes has something at the path. -/
def Untouched (includes : List ConfigTreeInclude) (p : ConfigTreePath) : Prop :=
  ∀ it ∈ includes, ∀ n, loader.Loads files chain it n → n.touches p = false

/-- None of the includes, merged at its place, has something for the path. -/
def UntouchedAt (places : List (ConfigTreePath × ConfigTreeInclude)) (p : ConfigTreePath) : Prop :=
  ∀ d ∈ places, ∀ n, loader.Loads files chain d.2 n → Spares d.1 n p

/-- The values of a loaded tree.  The chain ends with the file itself.

A value of the file is there unless an extending include, or a nested one above the value, has
something at its path; plain includes never replace it.  A value of an include is there unless an
include of the same kind that comes later, or something that is merged later, touches its path. -/
structure ValuesKept (current : ConfigTree) (found : FoundIncludes) (t : ConfigTree) : Prop where
  own : ∀ p v, current.valueAt p = some v → (∀ s ∈ p, s.text ≠ loader.includeTag) →
    Steady found.currentMergeMode p → Untouched loader files chain found.extending p →
    (∀ d ∈ found.places, ∀ r n, p = d.1 ++ r → loader.Loads files chain d.2 n →
      n.touches r = false) →
    t.valueAt p = some v
  plain : ∀ l₁ it l₂ n p v, found.plain = l₁ ++ it :: l₂ → loader.Loads files chain it n →
    n.valueAt p = some v → Steady it.merge p → Untouched loader files chain l₂ p →
    current.touches p = false → Untouched loader files chain found.extending p →
    UntouchedAt loader files chain found.places p → t.valueAt p = some v
  extending : ∀ l₁ it l₂ n p v, found.extending = l₁ ++ it :: l₂ →
    loader.Loads files chain it n → n.valueAt p = some v → Steady it.merge p →
    Steady found.currentMergeMode p → Untouched loader files chain l₂ p →
    UntouchedAt loader files chain found.places p → t.valueAt p = some v
  nested : ∀ l₁ q it l₂ n r v, found.places = l₁ ++ (q, it) :: l₂ →
    loader.Loads files chain it n → n.valueAt r = some v → Steady it.merge r →
    (∀ s ∈ q, s.text ≠ loader.includeTag) → Steady found.currentMergeMode q →
    (∀ it' ∈ found.extending, ∀ n', loader.Loads files chain it' n' → n'.cuts q = false) →
    (∀ d ∈ l₁, ∀ n', loader.Loads files chain d.2 n' → KeepsWay d.1 n' q) →
    UntouchedAt loader files chain l₂ (q ++ r) → t.valueAt (q ++ r) = some v

end

variable {loader : ConfigTreeLoader} {files : ConfigFiles} {chain : List String}
  {filename : String} {own : ConfigTree} {found : FoundIncludes} {t u : ConfigTree} {fuel : Nat}
  {p q : ConfigTreePath} {v : Scalar}

theorem UntouchedAt.mergeNested {l : List (ConfigTreePath × ConfigTreeInclude)}
    (h : UntouchedAt loader files chain l p) (hl : ∀ d ∈ l, ∀ i, .element i ∉ d.1)
    (hv : u.valueAt p = some v)
    (ht : l.foldlM (mergeNested fun it => loader.loadNext files fuel it chain) u = .ok t) :
    t.valueAt p = some v := by
  refine foldlM_keeps (I := fun u : ConfigTree => u.valueAt p = some v)
    (fun d hd u u' hu hstep => ?_) hv ht
  obtain ⟨n, hn, hstep⟩ := bind_eq_ok hstep
  exact valueAt_mergeAt (h d hd n ⟨fuel, hn⟩) (hl d hd) hu hstep

theorem givenTree_cases (load : ConfigTreeInclude → Except LoadError ConfigTree)
    (it : ConfigTreeInclude) : load it = .ok (givenTree load it) ∨ givenTree load it = .unset := by
  rw [givenTree]
  cases load it with
  | ok n => exact .inl rfl
  | error e => exact .inr rfl

theorem Untouched.given {l : List ConfigTreeInclude} (h : Untouched loader files chain l p) :
    ∀ it ∈ l, (givenTree (fun it => loader.loadNext files fuel it chain) it).touches p =
      false := by
  intro it hit
  rcases givenTree_cases (fun it => loader.loadNext files fuel it chain) it with hn | hn
  · exact h it hit _ ⟨fuel, hn⟩
  · rw [hn, touches_unset]

theorem cuts_given {it : ConfigTreeInclude}
    (h : ∀ n, loader.Loads files chain it n → n.cuts q = false) :
    (givenTree (fun it => loader.loadNext files fuel it chain) it).cuts q = false := by
  rcases givenTree_cases (fun it => loader.loadNext files fuel it chain) it with hn | hn
  · exact h _ ⟨fuel, hn⟩
  · rw [hn]
    cases q <;> rfl

/-- The tree of an include is the one that the loop got for it. -/
theorem Loads.given {s s' : TopState} {it : ConfigTreeInclude} {n : ConfigTree}
    {l : List ConfigTreeInclude} (hn : loader.Loads files chain it n)
    (hs : l.foldlM (mergeTop fun it => loader.loadNext files fuel it chain) s = .ok s')
    (hit : it ∈ l) (hfile : it.file ≠ "") :
    givenTree (fun it => loader.loadNext files fuel it chain) it = n := by
  obtain ⟨u, u', hu⟩ := foldlM_visits hs hit
  rw [mergeTop, if_neg hfile] at hu
  obtain ⟨n', hn', -⟩ := map_eq_ok hu
  exact (givenTree_eq hn').trans (Loads.unique ⟨fuel, hn'⟩ hn)

/-- **A load keeps the values** as its includes lie over each other. -/
theorem valuesKept (hfound : loader.findIncludes filename own = .ok found)
    (h : mergeIncludes (fun it => loader.loadNext files fuel it chain)
      (loader.withoutTags found own) found = .ok t) :
    loader.ValuesKept files chain own found t := by
  rw [mergeIncludes] at h
  obtain ⟨s, hs, h⟩ := bind_eq_ok h
  obtain ⟨hmerged, hcurrent, hmode⟩ := mergeTop_loop hs
  have hplace : ∀ d ∈ found.places, ∀ i, .element i ∉ d.1 := by
    intro d hd
    obtain ⟨s, hs⟩ := leadsTo_of_mem_places hfound hd
    exact hs.of_append.element_not_mem
  refine ⟨?_, ?_, ?_, ?_⟩
  · intro p v hv htag hp hext hnested
    have hplaces : UntouchedAt loader files chain found.places p := by
      intro d hd n hn
      obtain ⟨s, hs⟩ := leadsTo_of_mem_places hfound hd
      rcases hs.apart_or hv with hapart | ⟨r, rfl⟩
      · exact .inl hapart
      · exact .inr ⟨r, rfl, hnested d hd r n rfl hn⟩
    refine hplaces.mergeNested hplace (valueAt_joined_current ?_ (hmode ▸ hp)) h
    rw [hcurrent]
    exact valueAt_mergeAll hext.given (valueAt_withoutTags hv htag)
  · intro l₁ it l₂ n p v hsplit hn hv hp hlater hown hext hplaces
    have hit : it ∈ found.plain := hsplit ▸ List.mem_append_right l₁ (.head _)
    obtain ⟨htop, hplain⟩ := List.mem_filter.mp hit
    have hgiven := hn.given hs htop (by simp at hplain; exact hplain.1)
    refine hplaces.mergeNested hplace (valueAt_joined_merged ?_ ?_) h
    · rw [hmerged]
      change (mergeAll _ _ found.plain).valueAt p = some v
      rw [hsplit]
      exact valueAt_mergeAll_split hlater.given (hgiven ▸ hv) hp
    · rw [hcurrent]
      exact touches_mergeAll hext.given (touches_withoutTags hown)
  · intro l₁ it l₂ n p v hsplit hn hv hp hfinal hlater hplaces
    have hit : it ∈ found.extending := hsplit ▸ List.mem_append_right l₁ (.head _)
    obtain ⟨htop, hextend⟩ := List.mem_filter.mp hit
    have hgiven := hn.given hs htop (by simp at hextend; exact hextend.1)
    refine hplaces.mergeNested hplace (valueAt_joined_current ?_ (hmode ▸ hfinal)) h
    rw [hcurrent]
    change (mergeAll _ _ found.extending).valueAt p = some v
    rw [hsplit]
    exact valueAt_mergeAll_split hlater.given (hgiven ▸ hv) hp
  · intro l₁ q it l₂ n r v hsplit hn hv hr htag hfinal hext hway hlater
    have hmem : ∀ d, d ∈ l₁ ∨ d ∈ l₂ → d ∈ found.places := by
      intro d hd
      rw [hsplit]
      exact hd.elim (List.mem_append_left _) fun hd => List.mem_append_right _ (.tail _ hd)
    obtain ⟨s', hown⟩ := leadsTo_of_mem_places hfound
      (hsplit ▸ List.mem_append_right l₁ (.head _) : (q, it) ∈ found.places)
    have hjoined : s.joined.leadsTo q := by
      refine leadsTo_joined ?_ (hmode ▸ hfinal)
      rw [hcurrent]
      exact leadsTo_mergeAll (fun it' hit' => cuts_given (hext it' hit'))
        (leadsTo_withoutTags hown.of_append htag)
    rw [hsplit] at h
    obtain ⟨u, u', hu, hstep, ht⟩ := foldlM_split h
    have hleads : u.leadsTo q := by
      refine foldlM_keeps (I := fun u : ConfigTree => u.leadsTo q) (fun d hd w w' hw hd' => ?_)
        hjoined hu
      obtain ⟨n', hn', hd'⟩ := bind_eq_ok hd'
      exact leadsTo_mergeAt (hway d hd n' ⟨fuel, hn'⟩) hw hd'
    obtain ⟨n', hn', hstep⟩ := bind_eq_ok hstep
    cases hn.unique ⟨fuel, hn'⟩
    refine hlater.mergeNested (fun d hd => hplace d (hmem d (.inr hd))) ?_ ht
    exact valueAt_modifyAt_self (fun w => valueAt_merge_right hv hr) hleads hstep

/-! ### Trees without tags -/

section

variable (loader files)

/-- In the files that are opened, a tag at the top lists an include, and no place of a nested include
leads through a tag. -/
def Described : Prop :=
  ∀ chain it filename current found,
    loader.openFile files it chain = .ok (filename, current) →
    loader.findIncludes filename current = .ok found →
    (∀ keys entry, current = .map keys entry → loader.includeTag ∈ keys → found.top ≠ []) ∧
      ∀ d ∈ found.nested, ∀ s ∈ d.1, s.text ≠ loader.includeTag

end

/-- **A loaded tree has nothing under the include tag.** -/
theorem tagFree_loadNext (h : loader.Described files) (fuel : Nat) {it : ConfigTreeInclude}
    (ht : loader.loadNext files fuel it chain = .ok t) : t.TagFree loader.includeTag := by
  induction fuel generalizing it chain t with
  | zero => cases ht
  | succ fuel ih =>
    obtain ⟨filename, current, found, hopen, hfound, hmerge⟩ := loadNext_succ_eq_ok ht
    obtain ⟨htop, hplaces⟩ := h chain it filename current found hopen hfound
    rw [mergeIncludes] at hmerge
    obtain ⟨s, hs, hmerge⟩ := bind_eq_ok hmerge
    obtain ⟨hmerged, hcurrent, -⟩ := mergeTop_loop hs
    have hgiven : ∀ it, (givenTree (fun it => loader.loadNext files fuel it
        (chain ++ [filename])) it).TagFree loader.includeTag := by
      intro it
      rcases givenTree_cases (fun it => loader.loadNext files fuel it (chain ++ [filename])) it
        with hn | hn
      · exact ih hn
      · rw [hn]
        exact TagFree.unset
    have hown : s.current.TagFree loader.includeTag :=
      hcurrent ▸ tagFree_mergeAll (fun it _ => hgiven it) (tagFree_withoutTags htop)
    have hjoined : s.joined.TagFree loader.includeTag := by
      rw [TopState.joined]
      split
      · exact (hmerged ▸ tagFree_mergeAll (fun it _ => hgiven it) TagFree.unset).merge hown
      · exact hown
    refine foldlM_keeps (I := fun u : ConfigTree => u.TagFree loader.includeTag)
      (fun d hd u u' hu hstep => ?_) hjoined hmerge
    obtain ⟨n, hn, hstep⟩ := bind_eq_ok hstep
    obtain ⟨d', hd', hdd⟩ := List.mem_flatMap.mp hd
    obtain ⟨it1, -, rfl⟩ := List.mem_map.mp hdd
    exact hu.modifyAt (fun w hw => hw.merge (ih hn)) (hplaces d' hd') hstep

/-! ### Loading -/

section

variable (loader files)

/-- What loading does with the includes of the files.

A load ends.  It fails where a file includes one of its own chain.  Otherwise the loaded tree
has nothing under the tag, and the values of the files as `ValuesKept` says. -/
structure IncludesMerged : Prop where
  ends : ∀ it, ∃ r, r ≠ .error .outOfFuel ∧
    ∀ fuel, files.names.length < fuel → loader.loadNext files fuel it [] = r
  cycle : ∀ chain it, loader.MeetsCycle files chain it → ∀ t, ¬ loader.Loads files chain it t
  reported : ∀ chain it handler filename fuel,
    loader.handler (fileFormat it.format) = some handler →
    loader.findFile files chain it.file = some filename → filename ∈ chain →
    loader.loadNext files (fuel + 1) it chain = .error (.includeCycle filename)
  tagFree : loader.Described files → ∀ chain it t, loader.Loads files chain it t →
    t.TagFree loader.includeTag
  values : ∀ chain it filename current found t,
    loader.openFile files it chain = .ok (filename, current) →
    loader.findIncludes filename current = .ok found → loader.Loads files chain it t →
    loader.ValuesKept files (chain ++ [filename]) current found t

end

/-! ### A nested include -/

section

variable (loader files)

/-- The values of a file stay as long as no include of it is an extending one. -/
def OwnValuesStay : Prop :=
  ∀ chain it filename current found t,
    loader.openFile files it chain = .ok (filename, current) →
    loader.findIncludes filename current = .ok found → loader.Loads files chain it t →
    (∀ it, it ∈ found.top ∨ it ∈ found.places.map Prod.snd → it.extend = false) →
    ∀ p v, current.valueAt p = some v → (∀ s ∈ p, s.text ≠ loader.includeTag) →
      t.valueAt p = some v

end

/-- A map of these entries. -/
def mapOf (entries : List (String × ConfigTree)) : ConfigTree :=
  .map (entries.map Prod.fst) fun k => (entries.lookup k).getD .unset

/-- Two files that include a third one, which has a value for `b`: the first one at its top, and the
second one at the place where it has a value for `b` itself. -/
def sampleLoader : ConfigTreeLoader where
  handlers := [("jsonc", fun filename _ =>
    if filename = "/etc/top.jsonc" then
      .ok (mapOf [("#include", .scalar (.string "common.jsonc")), ("b", .scalar (.int 1))])
    else if filename = "/etc/nested.jsonc" then
      .ok (mapOf [("a", mapOf [("#include", .scalar (.string "common.jsonc")),
        ("b", .scalar (.int 1))])])
    else .ok (mapOf [("b", .scalar (.int 2))]))]

def sampleFiles : ConfigFiles where
  fileExists p := decide (p ∈ ["/etc/top.jsonc", "/etc/nested.jsonc", "/etc/common.jsonc"])
  currentPath := "/"
  names := ["/etc/top.jsonc", "/etc/nested.jsonc", "/etc/common.jsonc"]
  listed p h := by
    simp only [decide_eq_true_eq] at h
    rcases h with h | h
    · simp only [List.mem_cons, List.not_mem_nil, or_false] at h
      rcases h with rfl | rfl | rfl <;> decide
    · exact h

end ConfigTreeLoader

end Hatn.Base
