import Mathlib.Data.List.Sort

/-!
# Sets in the order of a comparison

A set of things that a comparison tells apart, as the list of them in their order.  The
comparison need not be an order on all things: what is found about the set is about things
that are told apart pairwise.
-/

namespace Hatn.Search

variable {α : Type}

/-- The comparison tells the things apart. -/
def Comparable (less : α → α → Bool) (a b : α) : Prop := less a b = true ∨ less b a = true

instance (less : α → α → Bool) (a b : α) : Decidable (Comparable less a b) :=
  inferInstanceAs (Decidable (_ ∨ _))

instance (less : α → α → Bool) : Std.Symm (Comparable less) := ⟨fun _ _ h => h.symm⟩

namespace OrderedSet

variable {less : α → α → Bool} {a : α} {l : List α}

/-- The set with the thing, and the position of it or of what it is not told apart from. -/
def emplace (less : α → α → Bool) (a : α) : List α → Nat × List α
  | [] => (0, [a])
  | b :: l =>
    if less a b then (0, a :: b :: l)
    else if less b a then ((emplace less a l).1 + 1, b :: (emplace less a l).2)
    else (0, b :: l)

/-- A thing told apart from all others is added. -/
theorem emplace_perm (h : ∀ b ∈ l, Comparable less a b) : (emplace less a l).2.Perm (a :: l) := by
  induction l with
  | nil => exact .refl _
  | cons b l ih =>
    rw [emplace]
    by_cases hab : less a b = true
    · rw [if_pos hab]
    · have hba := (h b List.mem_cons_self).resolve_left hab
      rw [if_neg hab, if_pos hba]
      have hl := ih fun c hc => h c (List.mem_cons_of_mem b hc)
      exact (hl.cons b).trans (.swap a b l)

theorem length_emplace_ge : l.length ≤ (emplace less a l).2.length := by
  induction l with
  | nil => exact Nat.zero_le _
  | cons b l ih =>
    rw [emplace]
    by_cases hab : less a b = true
    · rw [if_pos hab]
      exact Nat.le_succ _
    · rw [if_neg hab]
      by_cases hba : less b a = true
      · rw [if_pos hba]
        exact Nat.succ_le_succ ih
      · rw [if_neg hba]

theorem length_emplace_le : (emplace less a l).2.length ≤ l.length + 1 := by
  induction l with
  | nil => exact Nat.le_refl _
  | cons b l ih =>
    rw [emplace]
    by_cases hab : less a b = true
    · rw [if_pos hab]
      exact Nat.le_refl _
    · rw [if_neg hab]
      by_cases hba : less b a = true
      · rw [if_pos hba]
        exact Nat.succ_le_succ ih
      · rw [if_neg hba]
        exact Nat.le_succ _

end OrderedSet

/-! ### On things that the comparison puts in order -/

/-- The comparison puts the things of `V` in a strict order. -/
structure OrderedOn (less : α → α → Bool) (V : List α) : Prop where
  asymm : ∀ a ∈ V, ∀ b ∈ V, less a b = true → ¬ less b a = true
  trans : ∀ a ∈ V, ∀ b ∈ V, ∀ c ∈ V, less a b = true → less b c = true → less a c = true
  total : ∀ a ∈ V, ∀ b ∈ V, a = b ∨ Comparable less a b

namespace OrderedOn

variable {less : α → α → Bool} {a : α} {K L V : List α}

theorem irrefl (h : OrderedOn less V) (ha : a ∈ V) : ¬ less a a = true :=
  fun hl => h.asymm a ha a ha hl hl

theorem nodup (h : OrderedOn less V) (hV : K ⊆ V) (hK : K.Pairwise (less · · = true)) : K.Nodup := by
  refine hK.imp_of_mem fun hb _ hl heq => ?_
  rw [← heq] at hl
  exact h.irrefl (hV hb) hl

/-- **Lists in order** are known by their things. -/
theorem eq_of_mem_iff (h : OrderedOn less V) (hK : K.Pairwise (less · · = true))
    (hL : L.Pairwise (less · · = true)) (hKV : K ⊆ V) (hmem : ∀ x, x ∈ K ↔ x ∈ L) : K = L := by
  have hLV : L ⊆ V := fun x hx => hKV ((hmem x).mpr hx)
  have hperm : K.Perm L := (List.perm_ext_iff_of_nodup (h.nodup hKV hK) (h.nodup hLV hL)).mpr hmem
  refine List.Perm.eq_of_pairwise (fun b c hb hc hbc hcb => ?_) hK hL hperm
  exact absurd hcb (h.asymm b (hKV hb) c (hLV hc) hbc)

theorem mem_emplace (h : OrderedOn less V) (ha : a ∈ V) (hKV : K ⊆ V) {x : α} :
    x ∈ (OrderedSet.emplace less a K).2 ↔ x = a ∨ x ∈ K := by
  induction K with
  | nil => exact List.mem_cons
  | cons b K ih =>
    have hb := hKV List.mem_cons_self
    have ih := ih fun c hc => hKV (List.mem_cons_of_mem b hc)
    rw [OrderedSet.emplace]
    by_cases hab : less a b = true
    · rw [if_pos hab, List.mem_cons]
    · rw [if_neg hab]
      by_cases hba : less b a = true
      · rw [if_pos hba, List.mem_cons, ih, List.mem_cons, or_left_comm]
      · rw [if_neg hba]
        have heq := (h.total a ha b hb).resolve_right fun hc => hc.elim hab hba
        rw [List.mem_cons, heq]
        exact ⟨.inr, fun hx => hx.elim .inl id⟩

theorem pairwise_emplace (h : OrderedOn less V) (ha : a ∈ V) (hKV : K ⊆ V)
    (hK : K.Pairwise (less · · = true)) :
    (OrderedSet.emplace less a K).2.Pairwise (less · · = true) := by
  induction K with
  | nil => exact List.pairwise_singleton _ _
  | cons b K ih =>
    have hb := hKV List.mem_cons_self
    have hKV' : K ⊆ V := fun c hc => hKV (List.mem_cons_of_mem b hc)
    obtain ⟨hbK, hK'⟩ := List.pairwise_cons.mp hK
    rw [OrderedSet.emplace]
    by_cases hab : less a b = true
    · rw [if_pos hab]
      refine List.pairwise_cons.mpr ⟨fun c hc => ?_, hK⟩
      obtain rfl | hc := List.mem_cons.mp hc
      · exact hab
      · exact h.trans a ha b hb c (hKV' hc) hab (hbK c hc)
    · rw [if_neg hab]
      by_cases hba : less b a = true
      · rw [if_pos hba]
        refine List.pairwise_cons.mpr ⟨fun c hc => ?_, ih hKV' hK'⟩
        obtain rfl | hc := (h.mem_emplace ha hKV').mp hc
        · exact hba
        · exact hbK c hc
      · rw [if_neg hba]
        exact hK

/-- The first things of a list in order are those of the whole list, when what is left out has
things enough before it. -/
theorem take_eq_of_sublist (h : OrderedOn less V) {n : Nat} (hLV : L ⊆ V) (hsub : K.Sublist L)
    (hL : L.Pairwise (less · · = true))
    (hbest : ∀ x ∈ L, x ∉ K → n ≤ (K.filter (less · x)).length) : K.take n = L.take n := by
  induction hsub generalizing n with
  | slnil => rfl
  | @cons K L a hsub ih =>
    -- nothing is before the first thing
    obtain ⟨haL, -⟩ := List.pairwise_cons.mp hL
    have ha : a ∈ V := hLV List.mem_cons_self
    have hbefore : ∀ x ∈ K, ¬ less x a = true := fun x hx hl =>
      h.asymm a ha x (hLV (List.mem_cons_of_mem a (hsub.subset hx))) (haL x (hsub.subset hx)) hl
    have hnotMem : a ∉ K := fun hmem => h.irrefl ha (haL a (hsub.subset hmem))
    have hn := hbest a List.mem_cons_self hnotMem
    rw [List.filter_eq_nil_iff.mpr hbefore, List.length_nil, Nat.le_zero] at hn
    rw [hn]
    rfl
  | @cons_cons K L a hsub ih =>
    obtain ⟨haL, hL'⟩ := List.pairwise_cons.mp hL
    have hLV' : L ⊆ V := fun x hx => hLV (List.mem_cons_of_mem a hx)
    cases n with
    | zero => rfl
    | succ n =>
      rw [List.take_succ_cons, List.take_succ_cons]
      congr 1
      refine ih hLV' hL' fun x hx hxK => ?_
      have hxa : x ≠ a := by
        rintro rfl
        exact h.irrefl (hLV' hx) (haL x hx)
      have hn := hbest x (List.mem_cons_of_mem a hx) fun hmem =>
        (List.mem_cons.mp hmem).elim hxa hxK
      have hfilter : (a :: K).filter (less · x) = a :: K.filter (less · x) :=
        List.filter_cons_of_pos (haL x hx)
      rw [hfilter, List.length_cons] at hn
      exact Nat.le_of_succ_le_succ hn

/-- The list in order of some things of a longer one is a part of it. -/
theorem sublist_of_subset (h : OrderedOn less V) [DecidableEq α] (hLV : L ⊆ V) (hKL : K ⊆ L)
    (hK : K.Pairwise (less · · = true)) (hL : L.Pairwise (less · · = true)) : K.Sublist L := by
  have heq : K = L.filter (· ∈ K) := by
    refine h.eq_of_mem_iff hK (hL.sublist List.filter_sublist) (fun x hx => hLV (hKL hx)) fun x => ?_
    rw [List.mem_filter, decide_eq_true_eq]
    exact ⟨fun hx => ⟨hKL hx, hx⟩, fun hx => hx.2⟩
  rw [heq]
  exact List.filter_sublist

/-- **The first things** of a list in order are in any part of it that has, for each thing it
leaves out, things enough before that one. -/
theorem take_eq (h : OrderedOn less V) [DecidableEq α] {n : Nat} (hLV : L ⊆ V) (hKL : K ⊆ L)
    (hK : K.Pairwise (less · · = true)) (hL : L.Pairwise (less · · = true))
    (hbest : ∀ x ∈ L, x ∉ K → ∃ T : List α, T.Nodup ∧ T ⊆ K ∧ n ≤ T.length ∧
      ∀ y ∈ T, less y x = true) : K.take n = L.take n := by
  refine h.take_eq_of_sublist hLV (h.sublist_of_subset hLV hKL hK hL) hL fun x hx hxK => ?_
  obtain ⟨T, hnodup, hTK, hn, hT⟩ := hbest x hx hxK
  have hsub : T ⊆ K.filter (less · x) := fun y hy => List.mem_filter.mpr ⟨hTK hy, hT y hy⟩
  exact hn.trans (List.subperm_of_subset hnodup hsub).length_le

end OrderedOn

namespace OrderedSet

variable {less : α → α → Bool} {a : α} {K : List α}

/-- A thing that is added at the end is behind all others. -/
theorem emplace_eq_concat (hlast : (emplace less a K).1 + 1 = (emplace less a K).2.length)
    (hnew : (emplace less a K).2.length = K.length + 1) :
    (emplace less a K).2 = K ++ [a] ∧ ∀ b ∈ K, less b a = true := by
  induction K with
  | nil => exact ⟨rfl, nofun⟩
  | cons b K ih =>
    rw [emplace] at hlast hnew ⊢
    by_cases hab : less a b = true
    · rw [if_pos hab] at hlast
      simp only [List.length_cons] at hlast
      omega
    · rw [if_neg hab] at hlast hnew ⊢
      by_cases hba : less b a = true
      · rw [if_pos hba] at hlast hnew ⊢
        simp only [List.length_cons] at hlast hnew
        obtain ⟨heq, hall⟩ := ih (by omega) (by omega)
        refine ⟨by rw [heq]; rfl, fun c hc => ?_⟩
        obtain rfl | hc := List.mem_cons.mp hc
        · exact hba
        · exact hall c hc
      · rw [if_neg hba] at hnew
        simp only [List.length_cons] at hnew
        omega

/-- The set with all things of a list. -/
def emplaceAll (less : α → α → Bool) (K l : List α) : List α :=
  l.foldl (fun K a => (emplace less a K).2) K

theorem mem_emplaceAll {V : List α} (h : OrderedOn less V) {l : List α} (hl : l ⊆ V) :
    ∀ {K : List α}, K ⊆ V → ∀ {x : α}, x ∈ emplaceAll less K l ↔ x ∈ K ∨ x ∈ l := by
  induction l with
  | nil => exact fun _ _ => by simp [emplaceAll]
  | cons a l ih =>
    intro K hK x
    have ha : a ∈ V := hl List.mem_cons_self
    have hK' : (emplace less a K).2 ⊆ V := fun y hy =>
      ((h.mem_emplace ha hK).mp hy).elim (fun heq => heq ▸ ha) fun hy => hK hy
    have hmem := ih (fun y hy => hl (List.mem_cons_of_mem a hy)) hK' (x := x)
    rw [emplaceAll, List.foldl_cons, ← emplaceAll, hmem, h.mem_emplace ha hK, List.mem_cons]
    rw [or_assoc, or_left_comm]

theorem pairwise_emplaceAll {V : List α} (h : OrderedOn less V) {l : List α} (hl : l ⊆ V) :
    ∀ {K : List α}, K ⊆ V → K.Pairwise (less · · = true) →
      (emplaceAll less K l).Pairwise (less · · = true) := by
  induction l with
  | nil => exact fun _ hK => hK
  | cons a l ih =>
    intro K hK hsorted
    have ha : a ∈ V := hl List.mem_cons_self
    have hK' : (emplace less a K).2 ⊆ V := fun y hy =>
      ((h.mem_emplace ha hK).mp hy).elim (fun heq => heq ▸ ha) fun hy => hK hy
    exact ih (fun y hy => hl (List.mem_cons_of_mem a hy)) hK' (h.pairwise_emplace ha hK hsorted)

theorem emplaceAll_append (K l l' : List α) :
    emplaceAll less K (l ++ l') = emplaceAll less (emplaceAll less K l) l' :=
  List.foldl_append

theorem length_emplaceAll_le (l : List α) : ∀ K : List α,
    (emplaceAll less K l).length ≤ K.length + l.length := by
  induction l with
  | nil => exact fun K => Nat.le_refl _
  | cons a l ih =>
    intro K
    have hle := ih (emplace less a K).2
    have hone : (emplace less a K).2.length ≤ K.length + 1 := length_emplace_le
    rw [List.length_cons]
    exact hle.trans (by omega)

/-- A list in order is the set of its things. -/
theorem emplaceAll_of_pairwise {V : List α} (h : OrderedOn less V) {l : List α} (hl : l ⊆ V)
    (hsorted : l.Pairwise (less · · = true)) : emplaceAll less [] l = l := by
  have hmem : ∀ x, x ∈ emplaceAll less [] l ↔ x ∈ l := fun x => by
    rw [mem_emplaceAll h hl (List.nil_subset V)]
    exact or_iff_right (List.not_mem_nil)
  exact h.eq_of_mem_iff (pairwise_emplaceAll h hl (List.nil_subset V) .nil) hsorted
    (fun x hx => hl ((hmem x).mp hx)) hmem

end OrderedSet

/-! ### The first things of many -/

/-- `K` has, in order, at most `n` things of `V`: what is of `D` is among them, or they are `n`
and all before it. -/
structure Best (less : α → α → Bool) (V : List α) (n : Nat) (D : α → Prop) (K : List α) : Prop where
  sorted : K.Pairwise (less · · = true)
  subset : K ⊆ V
  length_le : K.length ≤ n
  mem : ∀ x, D x → x ∈ V
  best : ∀ x, D x → x ∈ K ∨ K.length = n ∧ ∀ y ∈ K, less y x = true

/-- The set with the thing, cut to `n`. -/
def OrderedSet.emplaceCut (less : α → α → Bool) (n : Nat) (a : α) (K : List α) : List α :=
  if n < (emplace less a K).2.length then (emplace less a K).2.dropLast else (emplace less a K).2

namespace Best

open OrderedSet

variable {less : α → α → Bool} {a : α} {K L V : List α} {n : Nat} {D D' : α → Prop}

theorem mono (h : Best less V n D K) (hD : ∀ x, D' x → D x) : Best less V n D' K :=
  ⟨h.sorted, h.subset, h.length_le, fun x hx => h.mem x (hD x hx), fun x hx => h.best x (hD x hx)⟩

theorem start : Best less V n (fun _ => False) [] := ⟨.nil, nofun, Nat.zero_le n, nofun, nofun⟩

theorem length_emplace (h : OrderedOn less V) (ha : a ∈ V) (hK : K ⊆ V) (hnew : a ∉ K) :
    (emplace less a K).2.length = K.length + 1 := by
  refine (emplace_perm fun b hb => ?_).length_eq
  exact (h.total a ha b (hK hb)).resolve_left fun heq => hnew (by rwa [heq])

/-- **One more thing** is kept, or the last one is cut. -/
theorem emplace_cut (h : OrderedOn less V) (hb : Best less V n D K) (ha : a ∈ V) :
    Best less V n (fun x => D x ∨ x = a) (emplaceCut less n a K) := by
  have hmem : ∀ {x : α}, x ∈ (emplace less a K).2 ↔ x = a ∨ x ∈ K := h.mem_emplace ha hb.subset
  have hsorted := h.pairwise_emplace ha hb.subset hb.sorted
  have hsubset : (emplace less a K).2 ⊆ V := fun x hx =>
    (hmem.mp hx).elim (fun heq => heq ▸ ha) fun hx => hb.subset hx
  have hle : (emplace less a K).2.length ≤ K.length + 1 := length_emplace_le
  have hge : K.length ≤ (emplace less a K).2.length := length_emplace_ge
  have hlength := hb.length_le
  have hD : ∀ x, D x ∨ x = a → x ∈ V := fun x hx => hx.elim (hb.mem x) fun heq => heq ▸ ha
  rw [emplaceCut]
  by_cases hcut : n < (emplace less a K).2.length
  · rw [if_pos hcut]
    have hne : (emplace less a K).2 ≠ [] := List.ne_nil_of_length_pos (by omega)
    have hsplit := List.dropLast_append_getLast hne
    generalize hm : (emplace less a K).2.getLast hne = m at hsplit
    have hmE : m ∈ (emplace less a K).2 := hm ▸ List.getLast_mem hne
    have hbefore : ∀ y ∈ (emplace less a K).2.dropLast, less y m = true := by
      rw [← hsplit, List.pairwise_append] at hsorted
      exact fun y hy => hsorted.2.2 y hy m (List.mem_singleton_self m)
    have hlast : (emplace less a K).2.dropLast.length = n := by
      rw [List.length_dropLast]
      omega
    refine ⟨hsorted.sublist (List.dropLast_sublist _),
      fun x hx => hsubset ((List.dropLast_sublist _).subset hx), hlast.le, hD, fun x hx => ?_⟩
    by_cases hxE : x ∈ (emplace less a K).2
    · rw [← hsplit, List.mem_append, List.mem_singleton] at hxE
      rcases hxE with hxE | rfl
      · exact .inl hxE
      · exact .inr ⟨hlast, hbefore⟩
    · -- a thing left out before is still behind all that are kept
      have hxD : D x := hx.resolve_right fun heq => hxE (hmem.mpr (.inl heq))
      obtain ⟨-, hall⟩ := (hb.best x hxD).resolve_left fun hxK => hxE (hmem.mpr (.inr hxK))
      refine .inr ⟨hlast, fun y hy => ?_⟩
      rcases hmem.mp ((List.dropLast_sublist _).subset hy) with heq | hyK
      · have hym := hbefore y hy
        rcases hmem.mp hmE with hma | hmK
        · rw [heq, hma] at hym
          exact absurd hym (h.irrefl ha)
        · exact h.trans y (heq ▸ ha) m (hsubset hmE) x (hb.mem x hxD) hym (hall m hmK)
      · exact hall y hyK
  · rw [if_neg hcut]
    refine ⟨hsorted, hsubset, not_lt.mp hcut, hD, fun x hx => ?_⟩
    by_cases hxE : x ∈ (emplace less a K).2
    · exact .inl hxE
    · have hxD : D x := hx.resolve_right fun heq => hxE (hmem.mpr (.inl heq))
      obtain ⟨hn, hall⟩ := (hb.best x hxD).resolve_left fun hxK => hxE (hmem.mpr (.inr hxK))
      refine .inr ⟨by omega, fun y hy => ?_⟩
      by_cases hyK : y ∈ K
      · exact hall y hyK
      · have heq := (hmem.mp hy).resolve_right hyK
        rw [heq] at hyK
        have hnew := length_emplace h ha hb.subset hyK
        omega

/-- **A thing cut at the end**: so would be all things behind it. -/
theorem stop (h : OrderedOn less V) (hb : Best less V n D K) (ha : a ∈ V)
    (hcut : n < (emplace less a K).2.length)
    (hlast : (emplace less a K).1 + 1 = (emplace less a K).2.length) :
    Best less V n (fun x => (D x ∨ x = a) ∨ x ∈ V ∧ less a x = true) (emplaceCut less n a K) := by
  have hle : (emplace less a K).2.length ≤ K.length + 1 := length_emplace_le
  have hlength := hb.length_le
  obtain ⟨heq, hall⟩ := emplace_eq_concat hlast (by omega)
  have hK : emplaceCut less n a K = K := by
    rw [emplaceCut, if_pos hcut, heq, List.dropLast_concat]
  have hcutBest := hb.emplace_cut h ha
  rw [hK] at hcutBest ⊢
  refine ⟨hb.sorted, hb.subset, hb.length_le, fun x hx => hx.elim (hcutBest.mem x) And.left,
    fun x hx => ?_⟩
  rcases hx with hx | ⟨hxV, hax⟩
  · exact hcutBest.best x hx
  · refine .inr ⟨by omega, fun y hy => ?_⟩
    exact h.trans y (hb.subset hy) a ha x hxV (hall y hy) hax

/-- When all things are accounted for, they are the first ones. -/
theorem eq_take (h : OrderedOn less V) [DecidableEq α] (hb : Best less V n D K)
    (hL : L.Pairwise (less · · = true)) (hLV : L ⊆ V) (hKL : K ⊆ L) (hD : ∀ x ∈ L, D x) :
    K = L.take n := by
  have htake : K.take n = L.take n := by
    refine h.take_eq hLV hKL hb.sorted hL fun x hx hxK => ?_
    obtain ⟨hn, hall⟩ := (hb.best x (hD x hx)).resolve_left hxK
    exact ⟨K, h.nodup hb.subset hb.sorted, fun _ hy => hy, hn.ge, hall⟩
  rw [← htake, List.take_of_length_le hb.length_le]

end Best

/-- The comparison is a strict weak order on the things of a list. -/
structure WeakOrderOn (less : α → α → Bool) (V : List α) : Prop where
  irrefl : ∀ a ∈ V, ¬ less a a = true
  asymm : ∀ a ∈ V, ∀ b ∈ V, less a b = true → ¬ less b a = true
  trans : ∀ a ∈ V, ∀ b ∈ V, ∀ c ∈ V, less a b = true → less b c = true → less a c = true
  incomparable : ∀ a ∈ V, ∀ b ∈ V, ∀ c ∈ V, ¬ Comparable less a b → ¬ Comparable less b c →
    ¬ Comparable less a c

/-- What is not less than a thing that is not less is not less either. -/
theorem WeakOrderOn.negTrans {less : α → α → Bool} {a b c : α} {V : List α}
    (h : WeakOrderOn less V) (ha : a ∈ V) (hb : b ∈ V) (hc : c ∈ V) (hab : less a b = false)
    (hbc : less b c = false) : less a c = false := by
  rw [← Bool.not_eq_true] at hab hbc ⊢
  intro hac
  have hnab : ¬ Comparable less a b := by
    rintro (hl | hl)
    · exact hab hl
    · exact hbc (h.trans b hb a ha c hc hl hac)
  have hnbc : ¬ Comparable less b c := by
    rintro (hl | hl)
    · exact hbc hl
    · exact hab (h.trans a ha c hc b hb hac hl)
  exact h.incomparable a ha b hb c hc hnab hnbc (.inl hac)

namespace OrderedOn

variable {less : α → α → Bool} {a b : α} {V : List α}

theorem not_comparable_iff (h : OrderedOn less V) (ha : a ∈ V) (hb : b ∈ V) :
    ¬ Comparable less a b ↔ a = b := by
  constructor
  · exact fun hab => (h.total a ha b hb).resolve_right hab
  · rintro rfl hc
    exact hc.elim (h.irrefl ha) (h.irrefl ha)

theorem weakOrderOn (h : OrderedOn less V) : WeakOrderOn less V where
  irrefl _ ha := h.irrefl ha
  asymm := h.asymm
  trans := h.trans
  incomparable a ha b hb c hc hab hbc := by
    rw [h.not_comparable_iff ha hb] at hab
    rw [h.not_comparable_iff hb hc] at hbc
    exact (h.not_comparable_iff ha hc).mpr (hab.trans hbc)

/-- A set is known by the things that are put into it. -/
theorem emplaceAll_eq (h : OrderedOn less V) {l l' : List α} (hl : l ⊆ V)
    (hmem : ∀ x, x ∈ l ↔ x ∈ l') :
    OrderedSet.emplaceAll less [] l = OrderedSet.emplaceAll less [] l' := by
  have hl' : l' ⊆ V := fun x hx => hl ((hmem x).mpr hx)
  have hnil := List.nil_subset V
  have hset := fun x => OrderedSet.mem_emplaceAll h hl hnil (x := x)
  have hset' := fun x => OrderedSet.mem_emplaceAll h hl' hnil (x := x)
  refine h.eq_of_mem_iff (OrderedSet.pairwise_emplaceAll h hl hnil .nil)
    (OrderedSet.pairwise_emplaceAll h hl' hnil .nil) (fun x hx => ?_) fun x => ?_
  · exact hl (((hset x).mp hx).resolve_left List.not_mem_nil)
  · rw [hset, hset', hmem]

end OrderedOn

end Hatn.Search
