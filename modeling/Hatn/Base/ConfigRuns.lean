import Mathlib.Data.List.Nodup
import Mathlib.Data.List.Perm.Subperm
import Hatn.Base.ConfigPlaces
import Hatn.Base.ConfigTreeLoader
import Hatn.Order.Folds

/-!
# Loading ends

A chain of includes has every file once, so the depth is bounded by the number of files; and a
load that meets a file of its own chain fails.
-/

namespace Hatn.Base

open Hatn.Order

theorem mapError_ne {α ε ε' : Type} {x : Except ε α} {f : ε → ε'} {e : ε'} (h : ∀ a, f a ≠ e) :
    x.mapError f ≠ .error e := by
  cases x with
  | error a => exact fun he => h a (Except.error.inj he)
  | ok a => exact nofun

theorem ConfigTree.modifyAt_ne_error {ε : Type} {e e' : ε} {f : ConfigTree → ConfigTree}
    {q : ConfigTreePath} {t : ConfigTree} (h : e ≠ e') : modifyAt e f q t ≠ .error e' := by
  have hmap : ∀ {x : Except ε ConfigTree} {g : ConfigTree → ConfigTree},
      x ≠ .error e' → x.map g ≠ .error e' := by
    intro x g hx
    cases x with
    | error a => exact fun he => hx he
    | ok a => exact nofun
  induction q generalizing t with
  | nil => exact nofun
  | cons s q ih =>
    cases t with
    | unset | scalar v | array type values => exact hmap ih
    | map keys entry => exact hmap ih
    | trees size item =>
      rw [modifyAt]
      split
      · split
        · exact hmap ih
        · exact fun he => h (Except.error.inj he)
      · exact hmap ih

section

variable {load load' : ConfigTreeInclude → Except LoadError ConfigTree} {current : ConfigTree}
  {found : FoundIncludes}

theorem mergeTop_eq (h : ∀ it, load it ≠ .error .outOfFuel → load' it = load it) (s : TopState)
    (it : ConfigTreeInclude) (hs : mergeTop load s it ≠ .error .outOfFuel) :
    mergeTop load' s it = mergeTop load s it := by
  rw [mergeTop] at hs
  rw [mergeTop, mergeTop]
  split
  · rfl
  · rename_i hfile
    rw [if_neg hfile] at hs
    rw [h it fun he => hs (by rw [he]; rfl)]

theorem mergeNested_eq (h : ∀ it, load it ≠ .error .outOfFuel → load' it = load it)
    (t : ConfigTree) (d : ConfigTreePath × ConfigTreeInclude)
    (ht : mergeNested load t d ≠ .error .outOfFuel) :
    mergeNested load' t d = mergeNested load t d := by
  rw [mergeNested] at ht
  rw [mergeNested, mergeNested, h d.2 fun he => ht (by rw [he]; rfl)]

/-- Merging does the same with more fuel below. -/
theorem mergeIncludes_eq (h : ∀ it, load it ≠ .error .outOfFuel → load' it = load it)
    (hne : mergeIncludes load current found ≠ .error .outOfFuel) :
    mergeIncludes load' current found = mergeIncludes load current found := by
  rw [mergeIncludes] at hne
  rw [mergeIncludes, mergeIncludes]
  have htop := foldlM_eq_of_ne_error (l := found.top) (s := { current }) (mergeTop_eq h)
  cases hs : found.top.foldlM (mergeTop load) { current } with
  | error e =>
    rw [hs] at hne
    rw [htop (fun he => hne (by rw [← hs, he]; rfl)), hs]
    rfl
  | ok s =>
    rw [hs] at hne
    rw [htop (fun he => nomatch hs.symm.trans he), hs]
    exact foldlM_eq_of_ne_error (mergeNested_eq h) hne

theorem mergeIncludes_ne (h : ∀ it, load it ≠ .error .outOfFuel) :
    mergeIncludes load current found ≠ .error .outOfFuel := by
  have htop : ∀ s it, mergeTop load s it ≠ .error .outOfFuel := by
    intro s it
    rw [mergeTop]
    split
    · exact nofun
    · cases hit : load it with
      | error e =>
        intro he
        cases he
        exact h it hit
      | ok t => exact nofun
  have hnested : ∀ t d, mergeNested load t d ≠ .error .outOfFuel := by
    intro t d
    rw [mergeNested]
    cases hd : load d.2 with
    | error e =>
      intro he
      cases he
      exact h d.2 hd
    | ok n => exact ConfigTree.modifyAt_ne_error nofun
  rw [mergeIncludes]
  cases hs : found.top.foldlM (mergeTop load) { current } with
  | error e =>
    intro he
    cases he
    exact foldlM_ne_error htop hs
  | ok s => exact foldlM_ne_error hnested

end

namespace ConfigTreeLoader

variable {loader : ConfigTreeLoader} {files : ConfigFiles} {chain : List String}
  {it : ConfigTreeInclude} {filename : String} {current : ConfigTree}

theorem findFile_mem {file : String} (h : loader.findFile files chain file = some filename) :
    filename ∈ files.names := by
  rw [findFile] at h
  split at h
  · rename_i hfile
    cases h
    exact files.listed file (.inr hfile)
  · split at h
    · cases h
    · obtain ⟨p, hp, rfl⟩ := Option.map_eq_some_iff.mp h
      exact files.listed p (.inl (List.find?_some hp))

/-- An opened file is there, and none of those that include it. -/
theorem openFile_eq_ok (h : loader.openFile files it chain = .ok (filename, current)) :
    loader.findFile files chain it.file = some filename ∧ filename ∉ chain := by
  rw [openFile] at h
  cases hhandler : loader.handler (fileFormat it.format) with
  | none =>
    rw [hhandler] at h
    cases h
  | some handler =>
    rw [hhandler] at h
    dsimp only at h
    cases hfile : loader.findFile files chain it.file with
    | none =>
      rw [hfile] at h
      cases h
    | some name =>
      rw [hfile] at h
      dsimp only at h
      split at h
      · cases h
      · rename_i hmem
        split at h
        · cases h
        · cases h
          exact ⟨rfl, hmem⟩

theorem openFile_ne : loader.openFile files it chain ≠ .error .outOfFuel := by
  rw [openFile]
  cases loader.handler (fileFormat it.format) with
  | none => exact nofun
  | some handler =>
    dsimp only
    cases loader.findFile files chain it.file with
    | none =>
      dsimp only
      split <;> exact nofun
    | some name =>
      dsimp only
      split
      · exact nofun
      · split <;> exact nofun

/-- **Loading ends**: a file is open once in a chain, so the fuel lasts. -/
theorem loadNext_ne_outOfFuel (fuel : Nat) (hnodup : chain.Nodup) (hsub : chain ⊆ files.names)
    (hfuel : files.names.length < fuel + chain.length) :
    loader.loadNext files fuel it chain ≠ .error .outOfFuel := by
  induction fuel generalizing it chain with
  | zero =>
    have := (List.subperm_of_subset hnodup hsub).length_le
    omega
  | succ fuel ih =>
    rw [loadNext]
    cases hopen : loader.openFile files it chain with
    | error e =>
      intro he
      cases he
      exact openFile_ne hopen
    | ok o =>
      obtain ⟨filename, current⟩ := o
      obtain ⟨hfile, hmem⟩ := openFile_eq_ok hopen
      change (Except.mapError LoadError.invalidInclude (loader.findIncludes filename current)).bind _ ≠ _
      cases hfound : (loader.findIncludes filename current).mapError LoadError.invalidInclude with
      | error e =>
        intro he
        cases he
        exact mapError_ne (f := LoadError.invalidInclude) (fun _ => by nofun) hfound
      | ok found =>
        refine mergeIncludes_ne fun it => ih ?_ ?_ ?_
        · exact (List.nodup_append_comm).mp (List.nodup_cons.mpr ⟨hmem, hnodup⟩)
        · intro f hf
          rcases List.mem_append.mp hf with hf | hf
          · exact hsub hf
          · rw [List.mem_singleton.mp hf]
            exact findFile_mem hfile
        · rw [List.length_append, List.length_singleton]
          omega

/-- More fuel changes nothing. -/
theorem loadNext_add (k fuel : Nat)
    (h : loader.loadNext files fuel it chain ≠ .error .outOfFuel) :
    loader.loadNext files (fuel + k) it chain = loader.loadNext files fuel it chain := by
  induction fuel generalizing it chain with
  | zero => exact (h rfl).elim
  | succ fuel ih =>
    rw [Nat.succ_add, loadNext, loadNext]
    rw [loadNext] at h
    cases hopen : loader.openFile files it chain with
    | error e => rfl
    | ok o =>
      obtain ⟨filename, current⟩ := o
      rw [hopen] at h
      change (Except.mapError LoadError.invalidInclude (loader.findIncludes filename current)).bind _ ≠ _ at h
      change (Except.mapError LoadError.invalidInclude (loader.findIncludes filename current)).bind _ =
        (Except.mapError LoadError.invalidInclude (loader.findIncludes filename current)).bind _
      cases hfound : (loader.findIncludes filename current).mapError LoadError.invalidInclude with
      | error e => rfl
      | ok found =>
        rw [hfound] at h
        exact mergeIncludes_eq (fun it => ih) h

/-- What a load has gone through that gives a tree. -/
theorem loadNext_succ_eq_ok {n : Nat} {t : ConfigTree}
    (h : loader.loadNext files (n + 1) it chain = .ok t) :
    ∃ filename current found, loader.openFile files it chain = .ok (filename, current) ∧
      loader.findIncludes filename current = .ok found ∧
      mergeIncludes (fun it => loader.loadNext files n it (chain ++ [filename]))
        (loader.withoutTags found current) found = .ok t := by
  rw [loadNext] at h
  obtain ⟨⟨filename, current⟩, hopen, h⟩ := bind_eq_ok h
  obtain ⟨found, hfound, h⟩ := bind_eq_ok h
  refine ⟨filename, current, found, hopen, ?_, h⟩
  cases hf : loader.findIncludes filename current with
  | error e =>
    rw [hf] at hfound
    cases hfound
  | ok found' =>
    rw [hf] at hfound
    cases hfound
    rfl

theorem loadNext_eq_ok {fuel : Nat} {t : ConfigTree}
    (h : loader.loadNext files fuel it chain = .ok t) :
    ∃ n filename current found, loader.openFile files it chain = .ok (filename, current) ∧
      loader.findIncludes filename current = .ok found ∧
      mergeIncludes (fun it => loader.loadNext files n it (chain ++ [filename]))
        (loader.withoutTags found current) found = .ok t := by
  cases fuel with
  | zero => cases h
  | succ n => exact ⟨n, loadNext_succ_eq_ok h⟩

variable (loader files)

/-- The load of an include by this chain of files gives the tree. -/
def Loads (chain : List String) (it : ConfigTreeInclude) (t : ConfigTree) : Prop :=
  ∃ fuel, loader.loadNext files fuel it chain = .ok t

/-- An include leads to a file of its own chain, itself or below. -/
inductive MeetsCycle : List String → ConfigTreeInclude → Prop
  | met {chain : List String} {it : ConfigTreeInclude} {filename : String}
      (hfile : loader.findFile files chain it.file = some filename) (hmem : filename ∈ chain) :
      MeetsCycle chain it
  | deeper {chain : List String} {it it' : ConfigTreeInclude} {filename : String}
      {current : ConfigTree} {found : FoundIncludes}
      (hopen : loader.openFile files it chain = .ok (filename, current))
      (hfound : loader.findIncludes filename current = .ok found)
      (hit : (it' ∈ found.top ∧ it'.file ≠ "") ∨ it' ∈ found.places.map Prod.snd)
      (h : MeetsCycle (chain ++ [filename]) it') : MeetsCycle chain it

variable {loader files}

theorem Loads.unique {t t' : ConfigTree} (h : loader.Loads files chain it t)
    (h' : loader.Loads files chain it t') : t = t' := by
  obtain ⟨fuel, h⟩ := h
  obtain ⟨fuel', h'⟩ := h'
  have hadd := loadNext_add fuel' fuel (fun he => nomatch h.symm.trans he)
  have hadd' := loadNext_add fuel fuel' (fun he => nomatch h'.symm.trans he)
  rw [Nat.add_comm] at hadd'
  exact Except.ok.inj ((h.symm.trans (hadd.symm.trans hadd')).trans h')

/-- A file of the chain is not loaded again: this is the error. -/
theorem loadNext_of_mem {handler : ConfigTreeIo} (fuel : Nat)
    (hformat : loader.handler (fileFormat it.format) = some handler)
    (hfile : loader.findFile files chain it.file = some filename) (hmem : filename ∈ chain) :
    loader.loadNext files (fuel + 1) it chain = .error (.includeCycle filename) := by
  have hopen : loader.openFile files it chain = .error (.includeCycle filename) := by
    rw [openFile, hformat, hfile]
    exact if_pos hmem
  rw [loadNext, hopen]
  rfl

/-- Every include of a file is loaded, or the load of the file fails. -/
theorem mergeIncludes_visits {load : ConfigTreeInclude → Except LoadError ConfigTree}
    {found : FoundIncludes} {t : ConfigTree} (h : mergeIncludes load current found = .ok t)
    (hit : (it ∈ found.top ∧ it.file ≠ "") ∨ it ∈ found.places.map Prod.snd) :
    ∃ n, load it = .ok n := by
  rw [mergeIncludes] at h
  obtain ⟨s, hs, h⟩ := bind_eq_ok h
  rcases hit with ⟨hit, hfile⟩ | hit
  · obtain ⟨u, u', hu⟩ := foldlM_visits hs hit
    rw [mergeTop, if_neg hfile] at hu
    obtain ⟨n, hn, -⟩ := map_eq_ok hu
    exact ⟨n, hn⟩
  · obtain ⟨d, hd, rfl⟩ := List.mem_map.mp hit
    obtain ⟨u, u', hu⟩ := foldlM_visits h hd
    obtain ⟨n, hn, -⟩ := bind_eq_ok hu
    exact ⟨n, hn⟩

/-- **A cycle of includes is an error**, wherever it is met. -/
theorem MeetsCycle.fails (h : loader.MeetsCycle files chain it) (t : ConfigTree) :
    ¬ loader.Loads files chain it t := by
  induction h generalizing t with
  | met hfile hmem =>
    rintro ⟨fuel, hload⟩
    obtain ⟨n, filename, current, found, hopen, -, -⟩ := loadNext_eq_ok hload
    obtain ⟨hfile', hmem'⟩ := openFile_eq_ok hopen
    cases hfile.symm.trans hfile'
    exact hmem' hmem
  | deeper hopen hfound hit _ ih =>
    rintro ⟨fuel, hload⟩
    obtain ⟨n, filename, current, found, hopen', hfound', hmerge⟩ := loadNext_eq_ok hload
    cases hopen.symm.trans hopen'
    cases hfound.symm.trans hfound'
    obtain ⟨u, hu⟩ := mergeIncludes_visits hmerge hit
    exact ih u ⟨n, hu⟩

end ConfigTreeLoader

end Hatn.Base
