import Hatn.Tables.Keyed
import Mathlib.Data.Finset.Sort
import Mathlib.Data.List.FinRange

/-!
# Loops over maps and arrays

A loop that may fail goes over the keys of a map in their order, or over the indices of an array,
and changes one entry of another map or array in each step.  Where every step returns, each entry is
what its step made of it, and nothing else is changed (`foldlM_each`).
-/

namespace Hatn.Tables

variable {σ ι κ τ ε : Type}

/-- **A loop whose steps change one entry each.** -/
theorem foldlM_each (look : σ → κ → Option τ) (e : ι → κ) (step : σ → ι → Except ε σ)
    (g : ι → Option τ) (l : List ι) : ∀ s : σ, (l.map e).Nodup →
    (∀ i ∈ l, ∀ s', look s' (e i) = look s (e i) → ∃ t, step s' i = .ok t ∧
      look t (e i) = g i ∧ ∀ k ≠ e i, look t k = look s' k) →
    ∃ t, l.foldlM step s = .ok t ∧ (∀ i ∈ l, look t (e i) = g i) ∧
      ∀ k, (∀ i ∈ l, e i ≠ k) → look t k = look s k := by
  induction l with
  | nil => exact fun s _ _ => ⟨s, rfl, nofun, fun _ _ => rfl⟩
  | cons i l ih =>
    intro s hl hstep
    rw [List.map_cons, List.nodup_cons] at hl
    obtain ⟨t, ht, hi, hother⟩ := hstep i List.mem_cons_self s rfl
    have hne : ∀ j ∈ l, e j ≠ e i := fun j hj heq => hl.1 (heq ▸ List.mem_map_of_mem hj)
    obtain ⟨u, hu, hdone, hleft⟩ := ih t hl.2 fun j hj s' hs' =>
      hstep j (List.mem_cons_of_mem i hj) s' (hs'.trans (hother _ (hne j hj)))
    refine ⟨u, ?_, fun j hj => ?_, fun k hk => ?_⟩
    · rw [List.foldlM_cons, ht]
      exact hu
    · rcases List.mem_cons.mp hj with rfl | hj
      · rw [hleft (e j) hne, hi]
      · exact hdone j hj
    · rw [hleft k fun j hj => hk j (List.mem_cons_of_mem i hj)]
      exact hother k (hk i List.mem_cons_self).symm

/-- What holds of the state and of the rest of the list, if a loop returns. -/
theorem foldlM_rest {step : σ → ι → Except ε σ} (I : List ι → σ → Prop)
    (hstep : ∀ i l s t, I (i :: l) s → step s i = .ok t → I l t) (l : List ι) :
    ∀ {s t : σ}, I l s → l.foldlM step s = .ok t → I [] t := by
  induction l with
  | nil =>
    intro s t hI h
    cases h
    exact hI
  | cons i l ih =>
    intro s t hI h
    rw [List.foldlM_cons] at h
    cases hs : step s i with
    | error e =>
      rw [hs] at h
      cases h
    | ok s' =>
      rw [hs] at h
      exact ih (hstep i l s s' hI hs) h

/-- A loop returns, if each step does. -/
theorem foldlM_total {step : σ → ι → Except ε σ} (I : List ι → σ → Prop)
    (hstep : ∀ i l s, I (i :: l) s → ∃ t, step s i = .ok t ∧ I l t) (l : List ι) :
    ∀ {s : σ}, I l s → ∃ t, l.foldlM step s = .ok t ∧ I [] t := by
  induction l with
  | nil => exact fun hI => ⟨_, rfl, hI⟩
  | cons i l ih =>
    intro s hI
    obtain ⟨s', hs', hI⟩ := hstep i l s hI
    rw [List.foldlM_cons, hs']
    exact ih hI

section Keys
variable [LinearOrder κ]

/-- The keys in their order. -/
def ordered (s : Finset κ) : List {k // k ∈ s} :=
  (s.sort (· ≤ ·)).attach.map fun k => ⟨k.1, (Finset.mem_sort _).mp k.2⟩

theorem map_val_ordered (s : Finset κ) : (ordered s).map Subtype.val = s.sort (· ≤ ·) := by
  rw [ordered, List.map_map]
  exact List.attach_map_subtype_val _

theorem nodup_ordered (s : Finset κ) : (ordered s).Nodup := by
  refine List.Nodup.of_map Subtype.val ?_
  rw [map_val_ordered]
  exact Finset.sort_nodup _ _

theorem mem_ordered {s : Finset κ} (k : {k // k ∈ s}) : k ∈ ordered s := by
  have hk : k.1 ∈ (ordered s).map Subtype.val := by
    rw [map_val_ordered]
    exact (Finset.mem_sort _).mpr k.2
  obtain ⟨k', hk', heq⟩ := List.mem_map.mp hk
  rwa [← Subtype.ext heq]

namespace Keyed

/-- The loop over keys that makes an entry of the one that is there, or of none. -/
def updateEach {s : Finset κ} (f : {k // k ∈ s} → Option τ → Except ε τ) (m : Keyed κ τ) :
    Except ε (Keyed κ τ) :=
  (ordered s).foldlM (fun m k => (f k (m.find k.1)).map fun t => m.insert k.1 t) m

theorem updateEach_ok {s : Finset κ} {f : {k // k ∈ s} → Option τ → Except ε τ} {m : Keyed κ τ}
    {g : {k // k ∈ s} → τ} (h : ∀ k, f k (m.find k.1) = .ok (g k)) :
    ∃ m', updateEach f m = .ok m' ∧ ∀ k, m'.find k =
      if hk : k ∈ s then some (g ⟨k, hk⟩) else m.find k := by
  have hnodup := (nodup_ordered s).map Subtype.val_injective
  obtain ⟨m', hm', hdone, hleft⟩ := foldlM_each find Subtype.val
    (fun m k => (f k (m.find k.1)).map fun t => m.insert k.1 t) (fun k => some (g k))
    (ordered s) m hnodup
    fun k _ m₁ hm₁ => ⟨m₁.insert k.1 (g k), by rw [hm₁, h]; rfl, find_insert_self _ _ _,
      fun k' hk' => find_insert_of_ne hk' _ _⟩
  refine ⟨m', hm', fun k => ?_⟩
  split
  next hk => exact hdone ⟨k, hk⟩ (mem_ordered _)
  next hk => exact hleft k fun k' _ heq => hk (heq ▸ k'.2)

end Keyed

end Keys

namespace Items

/-- An item is made of the one that is there; nothing is done behind the end of the array. -/
def updateAt {n : Nat} (f : Fin n → τ → Except ε τ) (l : List τ) (i : Fin n) :
    Except ε (List τ) :=
  match l[i.1]? with
  | none => .ok l
  | some t => (f i t).map fun t => l.set i.1 t

/-- The loop over the indices up to `n`. -/
def updateEach {n : Nat} (f : Fin n → τ → Except ε τ) (l : List τ) : Except ε (List τ) :=
  (List.finRange n).foldlM (updateAt f) l

theorem updateEach_ok {n : Nat} {f : Fin n → τ → Except ε τ} {l : List τ} {g : Fin n → τ}
    (h : ∀ i t, l[i.1]? = some t → f i t = .ok (g i)) :
    ∃ l', updateEach f l = .ok l' ∧ ∀ j, l'[j]? =
      if hj : j < n then l[j]?.map fun _ => g ⟨j, hj⟩ else l[j]? := by
  have hnodup : ((List.finRange n).map Fin.val).Nodup :=
    (List.nodup_finRange n).map Fin.val_injective
  have hstep : ∀ i ∈ List.finRange n, ∀ l₁ : List τ, l₁[i.1]? = l[i.1]? → ∃ l₂,
      updateAt f l₁ i = .ok l₂ ∧ l₂[i.1]? = (l[i.1]?.map fun _ => g i) ∧
        ∀ k ≠ i.1, l₂[k]? = l₁[k]? := by
    intro i _ l₁ hl₁
    rw [updateAt, hl₁]
    cases hi : l[i.1]? with
    | none => exact ⟨l₁, rfl, hl₁.trans hi, fun _ _ => rfl⟩
    | some t =>
      dsimp only
      rw [h i t hi]
      refine ⟨l₁.set i.1 (g i), rfl, ?_, fun k hk => ?_⟩
      · obtain ⟨hlt, -⟩ := List.getElem?_eq_some_iff.mp (hl₁.trans hi)
        exact List.getElem?_set_self hlt
      · exact List.getElem?_set_ne hk.symm
  obtain ⟨l', hl', hdone, hleft⟩ := foldlM_each (fun (l : List τ) (j : Nat) => l[j]?) Fin.val
    (updateAt f) (fun i => l[i.1]?.map fun _ => g i) (List.finRange n) l hnodup hstep
  refine ⟨l', hl', fun j => ?_⟩
  split
  next hj => exact hdone ⟨j, hj⟩ (List.mem_finRange _)
  next hj => exact hleft j fun i _ heq => hj (heq ▸ i.2)

end Items

end Hatn.Tables
