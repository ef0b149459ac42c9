import Hatn.Base.ConfigTreeJsonRuns
import Mathlib.Data.List.TakeWhile

/-!
# What JSON keeps of a configuration tree

A tree that is written and parsed should have the same types and values at the same places.  It has
them just when it is `Representable` (`roundTrip_iff`): arrays are not empty, the items of an array
of nodes are maps and arrays, and no string and no key has a null character.
-/

namespace Hatn.Base

open Tables

/-! ### Types and values -/

/-- A value, or a default value where no value is set; a number without the type it was set with. -/
inductive EffectiveValue
  | none
  | number (n : Int)
  | double (bits : UInt64)
  | bool (b : Bool)
  | string (s : String)
  | array (a : ConfigArray)
  | trees (size : Nat)
  | map

def EffectiveValue.type : EffectiveValue → ConfigType
  | none => .none
  | number _ => .int
  | double _ => .double
  | bool _ => .bool
  | string _ => .string
  | array a => a.type
  | trees _ => .arrayTree
  | map => .map

def ConfigScalar.effective : ConfigScalar → EffectiveValue
  | int n => .number n.value
  | double bits => .double bits
  | bool b => .bool b
  | string s => .string s

namespace ConfigTreeValue

/-- `type(true)` -/
def typeOrDefault : ConfigTreeValue → ConfigType
  | unset (some v) => v.type
  | t => t.type

def effective : ConfigTreeValue → EffectiveValue
  | unset none => .none
  | unset (some v) => v.effective
  | scalar _ v => v.effective
  | array _ a => .array a
  | trees _ items => .trees items.size
  | map _ _ => .map

/-- The type and the value at a place, or at a path. -/
structure Same (t t' : Option ConfigTreeValue) : Prop where
  type : t'.map typeOrDefault = t.map typeOrDefault
  value : t'.map effective = t.map effective

/-- The values are the same at every place. -/
def Alike (t t' : ConfigTreeValue) : Prop :=
  ∀ place, (t'.at_ place).map effective = (t.at_ place).map effective

variable {t t' c : ConfigTreeValue}

theorem typeOrDefault_eq (t : ConfigTreeValue) : t.typeOrDefault = t.effective.type := by
  have hscalar : ∀ v : ConfigScalar, v.type = v.effective.type := fun v => by cases v <;> rfl
  cases t with
  | unset d =>
    cases d with
    | none => rfl
    | some v => exact hscalar v
  | scalar d v => exact hscalar v
  | _ => rfl

theorem same_of_value {t t' : Option ConfigTreeValue} (h : t'.map effective = t.map effective) :
    Same t t' := by
  have htype : ∀ t : Option ConfigTreeValue,
      t.map typeOrDefault = (t.map effective).map EffectiveValue.type := fun t => by
    rw [Option.map_map]
    exact congrArg (Option.map · t) (funext typeOrDefault_eq)
  exact ⟨by rw [htype, htype, h], h⟩

theorem alike_iff : Alike t t' ↔ t'.effective = t.effective ∧
    ∀ e, Option.Rel Alike (t.child e) (t'.child e) := by
  constructor
  · refine fun h => ⟨Option.some.inj (h []), fun e => ?_⟩
    have hcons : ∀ place, ((t'.child e).bind fun c => c.at_ place).map effective =
        ((t.child e).bind fun c => c.at_ place).map effective := fun place => h (e :: place)
    cases hc : t.child e with
    | none =>
      cases hc' : t'.child e with
      | none => exact .none
      | some c' =>
        have hnone := hcons []
        rw [hc, hc'] at hnone
        cases hnone
    | some c =>
      cases hc' : t'.child e with
      | none =>
        have hnone := hcons []
        rw [hc, hc'] at hnone
        cases hnone
      | some c' =>
        rw [hc, hc'] at hcons
        exact .some hcons
  · rintro ⟨h, hchild⟩ place
    cases place with
    | nil => exact congrArg some h
    | cons e place =>
      have he := hchild e
      rw [at_, at_]
      generalize t.child e = o at he ⊢
      generalize t'.child e = o' at he ⊢
      cases he with
      | none => rfl
      | some hc => exact hc place

theorem alike_symm (h : Alike t t') : Alike t' t := fun place => (h place).symm

theorem child_alike {e : Edge} (h : Alike t t') (hc : t.child e = some c) :
    ∃ c', t'.child e = some c' ∧ Alike c c' := by
  have he := (alike_iff.mp h).2 e
  rw [hc] at he
  generalize t'.child e = o' at he ⊢
  cases he with
  | some hc' => exact ⟨_, rfl, hc'⟩

/-- Only a map has the value of a map. -/
theorem eq_map (h : t.effective = .map) : ∃ d m, t = map d m := by
  cases t with
  | map d m => exact ⟨d, m, rfl⟩
  | unset d =>
    cases d with
    | none => cases h
    | some v => cases v <;> cases h
  | scalar d v => cases v <;> cases h
  | _ => cases h

theorem eq_trees {n : Nat} (h : t.effective = .trees n) :
    ∃ d items, t = trees d items ∧ items.size = n := by
  cases t with
  | trees d items => exact ⟨d, items, rfl, EffectiveValue.trees.inj h⟩
  | unset d =>
    cases d with
    | none => cases h
    | some v => cases v <;> cases h
  | scalar d v => cases v <;> cases h
  | _ => cases h

theorem step_alike {s : String} {e : Edge} (h : Alike t t') (hstep : t.step s = .ok (e, c)) :
    ∃ c', t'.step s = .ok (e, c') ∧ Alike c c' := by
  obtain ⟨hchild, hcases⟩ := step_ok hstep
  obtain ⟨c', hchild', hc⟩ := child_alike h hchild
  refine ⟨c', ?_, hc⟩
  have hvalue := (alike_iff.mp h).1
  obtain ⟨rfl, d, m, rfl, -⟩ | ⟨i, d, items, rfl, hs, rfl, -⟩ := hcases
  · obtain ⟨d', m', rfl⟩ := eq_map hvalue
    rw [step_map, show m'.find s = some c' from hchild']
  · obtain ⟨d', items', rfl, -⟩ := eq_trees hvalue
    exact step_trees_of_find d' hs hchild'

/-- Alike trees have alike nodes at the same paths. -/
theorem alike_node (path : List String) : ∀ {t t' : ConfigTreeValue}, Alike t t' →
    (t'.node path).map effective = (t.node path).map effective := by
  induction path with
  | nil => exact fun h => h []
  | cons s path ih =>
    intro t t' h
    by_cases hs : s = ""
    · have hnode : ∀ t : ConfigTreeValue, t.node (s :: path) = t.node path := fun t => by
        rw [node, resolve, doGet, if_pos hs]
        rfl
      rw [hnode, hnode]
      exact ih h
    cases hstep : t.step s with
    | ok r =>
      obtain ⟨c', hstep', hc⟩ := step_alike h hstep
      rw [node_cons_ok hs hstep, node_cons_ok hs hstep']
      exact ih hc
    | error error =>
      cases hstep' : t'.step s with
      | ok r =>
        obtain ⟨c, hstep', -⟩ := step_alike (alike_symm h) hstep'
        cases hstep.symm.trans hstep'
      | error error' => rw [node_cons_error hs hstep, node_cons_error hs hstep']

/-- All types and values are the same, at all places and all paths. -/
structure Kept (t t' : ConfigTreeValue) : Prop where
  place : ∀ place, Same (t.at_ place) (t'.at_ place)
  path : ∀ path, Same (t.node path) (t'.node path)

theorem kept_iff_alike : Kept t t' ↔ Alike t t' :=
  ⟨fun h place => (h.place place).value,
    fun h => ⟨fun place => same_of_value (h place), fun path => same_of_value (alike_node path h)⟩⟩

end ConfigTreeValue

/-! ### Trees that are kept -/

/-- A value without null characters. -/
def ConfigScalar.Clean : ConfigScalar → Prop
  | string s => '\x00' ∉ s.toList
  | _ => True

namespace ConfigTreeValue

/-- A map or an array. -/
def IsContainer (t : ConfigTreeValue) : Prop := t.type = .map ∨ t.type.isArray = true

/-- A node that is written as what it is. -/
def RepresentableNode : ConfigTreeValue → Prop
  | unset none => True
  | unset (some v) | scalar _ v => v.Clean
  | array _ a => a.values ≠ [] ∧ ∀ v ∈ a.values, v.Clean
  | trees _ items => items.size ≠ 0 ∧ ∀ i, (items.item i).IsContainer
  | map _ m => ∀ k ∈ m.keys, '\x00' ∉ k.toList

/-- All nodes of the tree are such. -/
def Everywhere (P : ConfigTreeValue → Prop) (t : ConfigTreeValue) : Prop :=
  ∀ place c, t.at_ place = some c → P c

/-- All arrays have items, those of nodes have maps and arrays, and there are no null characters. -/
def Representable (t : ConfigTreeValue) : Prop := t.Everywhere RepresentableNode

/-- There are no floating point values. -/
def NoDoubles (t : ConfigTreeValue) : Prop :=
  t.Everywhere fun c => c.typeOrDefault ≠ .double ∧ c.typeOrDefault ≠ .arrayDouble

variable {t t' c : ConfigTreeValue}

theorem everywhere_iff {P : ConfigTreeValue → Prop} : t.Everywhere P ↔
    P t ∧ ∀ e c, t.child e = some c → c.Everywhere P := by
  constructor
  · refine fun h => ⟨h [] t rfl, fun e c hc place c' hat => h (e :: place) c' ?_⟩
    rw [at_, hc]
    exact hat
  · rintro ⟨h, hchild⟩ place c hat
    cases place with
    | nil =>
      cases hat
      exact h
    | cons e place =>
      obtain ⟨d, hd, hat⟩ := Option.bind_eq_some_iff.mp hat
      exact hchild e d hd place c hat

/-! ### Strings -/

theorem cStr_eq_iff (s : String) : cStr s = s ↔ '\x00' ∉ s.toList := by
  have htake : ∀ l : List Char, l.takeWhile (· ≠ '\x00') = l ↔ '\x00' ∉ l := by
    intro l
    rw [List.takeWhile_eq_self_iff]
    constructor
    · exact fun h hmem => absurd (h _ hmem) (by decide)
    · exact fun h c hc => decide_eq_true fun heq => h (heq ▸ hc)
  rw [cStr, ← htake, ← String.toList_inj, String.toList_ofList]

theorem cStr_clean (s : String) : '\x00' ∉ (cStr s).toList := by
  rw [cStr, String.toList_ofList]
  intro hmem
  exact absurd (List.mem_takeWhile_imp hmem) (by decide)

theorem effective_reported (v : ConfigScalar) : v.reported.effective = v.effective ↔ v.Clean := by
  cases v with
  | int n => exact iff_of_true (congrArg EffectiveValue.number (value_reported n)) trivial
  | double bits | bool b => exact iff_of_true rfl trivial
  | string s =>
    refine Iff.trans ?_ (cStr_eq_iff s)
    exact ⟨EffectiveValue.string.inj, congrArg EffectiveValue.string⟩

end ConfigTreeValue

/-! ### What is read of an array -/

/-- The array as it is read. -/
def ConfigArray.reported : ConfigArray → ConfigArray
  | strings l => strings (l.map cStr)
  | a => a

namespace ConfigTreeValue

variable {t t' c : ConfigTreeValue}

theorem appendValue_array {d : Option ConfigScalar} {a a' : ConfigArray} {v : ConfigScalar}
    (h : a.append v = some a') : appendValue (array d a) v = .ok (array d a') := by
  rw [appendValue, if_pos (by rfl)]
  dsimp only
  rw [h]

/-- An array of one type. -/
theorem foldlM_append {α : Type} (mk : List α → ConfigArray) {inj : α → ConfigScalar} {g : α → α}
    (happend : ∀ l x, (mk l).append (inj x).reported = some (mk (l ++ [g x]))) (xs : List α) :
    ∀ l, (xs.map inj).foldlM (fun acc v => appendValue acc v.reported) (array none (mk l)) =
      .ok (array none (mk (l ++ xs.map g))) := by
  induction xs with
  | nil =>
    intro l
    rw [List.map_nil, List.map_nil, List.append_nil]
    rfl
  | cons x xs ih =>
    intro l
    rw [List.map_cons, List.foldlM_cons, appendValue_array (happend l x), List.map_cons]
    refine (ih (l ++ [g x])).trans ?_
    rw [← List.append_cons]

/-- The array is made by the first value. -/
theorem foldlM_append_fresh {α : Type} (mk : List α → ConfigArray) {inj : α → ConfigScalar}
    {g : α → α} (happend : ∀ l x, (mk l).append (inj x).reported = some (mk (l ++ [g x])))
    (hmake : ∀ x, (inj x).reported.toArray = mk []) (xs : List α) :
    (xs.map inj).foldlM (fun acc v => appendValue acc v.reported) fresh =
      .ok (if xs.map inj = [] then fresh else array none (mk (xs.map g))) := by
  cases xs with
  | nil => rfl
  | cons x xs =>
    have hfresh : appendValue fresh (inj x).reported =
        appendValue (array none (mk [])) (inj x).reported := by
      rw [← hmake x]
      rfl
    have hfold := foldlM_append mk happend (x :: xs) []
    rw [List.map_cons, List.foldlM_cons] at hfold ⊢
    rw [hfresh, hfold, if_neg (List.cons_ne_nil _ _)]
    rfl

theorem read_array (d : Option ConfigScalar) (a : ConfigArray) :
    read (array d a) = .ok (if a.values = [] then fresh else array none a.reported) := by
  have hints : ∀ (l : List Int64) (n : Int64),
      (ConfigArray.ints l).append (ConfigScalar.int ⟨.int64, n, Int64.ofInt_toInt n⟩).reported =
        some (.ints (l ++ [n])) := fun l n =>
    congrArg (fun n => some (ConfigArray.ints (l ++ [n]))) (Int64.ofInt_toInt n)
  cases a with
  | ints l =>
    refine (foldlM_append_fresh .ints (g := id) hints (fun _ => rfl) l).trans ?_
    rw [List.map_id]
    rfl
  | doubles l =>
    refine (foldlM_append_fresh .doubles (g := id) (fun _ _ => rfl) (fun _ => rfl) l).trans ?_
    rw [List.map_id]
    rfl
  | bools l =>
    refine (foldlM_append_fresh .bools (g := id) (fun _ _ => rfl) (fun _ => rfl) l).trans ?_
    rw [List.map_id]
    rfl
  | strings l =>
    exact foldlM_append_fresh .strings (fun _ _ => rfl) (fun _ => rfl) l

theorem reported_eq_iff (a : ConfigArray) : a.reported = a ↔ ∀ v ∈ a.values, v.Clean := by
  cases a with
  | ints l =>
    refine iff_of_true rfl fun v hv => ?_
    obtain ⟨n, -, rfl⟩ := List.mem_map.mp hv
    trivial
  | doubles l =>
    refine iff_of_true rfl fun v hv => ?_
    obtain ⟨bits, -, rfl⟩ := List.mem_map.mp hv
    trivial
  | bools l =>
    refine iff_of_true rfl fun v hv => ?_
    obtain ⟨b, -, rfl⟩ := List.mem_map.mp hv
    trivial
  | strings l =>
    have hmap : (ConfigArray.strings l).reported = .strings l ↔ l.map cStr = l :=
      ⟨ConfigArray.strings.inj, congrArg ConfigArray.strings⟩
    have hself : l.map cStr = l ↔ ∀ s ∈ l, cStr s = s := by
      have hid := List.map_inj_left (f := cStr) (g := id) (l := l)
      rwa [List.map_id] at hid
    rw [hmap, hself, ConfigArray.values, List.forall_mem_map]
    exact forall₂_congr fun s _ => cStr_eq_iff s

/-! ### What is read of an array of nodes -/

theorem appendValue_ok {acc : ConfigTreeValue} {v : ConfigScalar}
    (h : acc.appendValue v = .ok t) : ∃ d a, t = array d a := by
  rw [appendValue] at h
  split at h
  next d a hacc =>
    split at h
    next => cases h
    next a' ha =>
      cases h
      exact ⟨d, a', rfl⟩
  next => cases h

/-- An item is a value, or a map or an array. -/
theorem addItem_ok {acc item : ConfigTreeValue} {r : Except ParserError ConfigTreeValue}
    (h : addItem acc item r = .ok t) : (∃ d a, t = array d a) ∨
      item.IsContainer ∧ ∃ c i, r = .ok c ∧ acc.appendTree c = .ok (t, i) := by
  have hcontainer : (do
      let _ ← acc.appendTree fresh
      let c ← r
      let p ← acc.appendTree c
      return p.1) = Except.ok t → ∃ c i, r = .ok c ∧ acc.appendTree c = .ok (t, i) := by
    intro h
    obtain ⟨_, -, h⟩ := Parser.bind_eq_ok.mp h
    obtain ⟨c, hc, h⟩ := Parser.bind_eq_ok.mp h
    obtain ⟨⟨t', i⟩, ht', h⟩ := Parser.bind_eq_ok.mp h
    cases h
    exact ⟨c, i, hc, ht'⟩
  cases item with
  | unset d =>
    cases d with
    | none => cases h
    | some v => exact .inl (appendValue_ok h)
  | scalar d v => exact .inl (appendValue_ok h)
  | array d a => exact .inr ⟨.inr (by cases a <;> rfl), hcontainer h⟩
  | trees d items => exact .inr ⟨.inr rfl, hcontainer h⟩
  | map d m => exact .inr ⟨.inl rfl, hcontainer h⟩

/-- A map or an array is put at the end of an array of nodes. -/
theorem addItem_total {acc item : ConfigTreeValue} (hitem : item.IsContainer)
    {r : Except ParserError ConfigTreeValue} (hr : r = .ok c)
    (hacc : acc = fresh ∨ ∃ d items, acc = trees d items) :
    ∃ d items, addItem acc item r = .ok (trees d items) := by
  have hadd : addItem acc item r = do
      let _ ← acc.appendTree fresh
      let c ← r
      let p ← acc.appendTree c
      return p.1 := by
    cases item with
    | unset d => rcases hitem with h | h <;> cases h
    | scalar d v => rcases hitem with h | h <;> cases v <;> cases h
    | _ => rfl
  rw [hadd, hr]
  rcases hacc with rfl | ⟨d, items, rfl⟩
  · exact ⟨_, _, rfl⟩
  · exact ⟨_, _, rfl⟩

section Items
variable {size : Nat} {item : Fin size → ConfigTreeValue}

/-- What an item is read as, in an array of nodes. -/
def ItemRead (item c : ConfigTreeValue) : Prop := item.IsContainer ∧ read item = .ok c

/-- What an array has become after some of its items: nothing is set yet, or it is one without
nodes, or it has the nodes that the items are read as. -/
def SoFar (item : Fin size → ConfigTreeValue) (rest : List (Fin size)) (acc : ConfigTreeValue) :
    Prop :=
  (acc = fresh ∧ rest = List.finRange size) ∨ (∃ d a, acc = array d a) ∨
    ∃ d ys done, acc = trees d (Items.ofList ys) ∧ done ≠ [] ∧ List.finRange size = done ++ rest ∧
      List.Forall₂ (fun i c => ItemRead (item i) c) done ys

theorem soFar_step {i : Fin size} {rest : List (Fin size)} {acc acc' : ConfigTreeValue}
    (h : SoFar item (i :: rest) acc) (hstep : addItem acc (item i) (read (item i)) = .ok acc') :
    SoFar item rest acc' := by
  rcases addItem_ok hstep with harray | ⟨hitem, c, j, hread, happend⟩
  · exact .inr (.inl harray)
  rcases h with ⟨rfl, hrest⟩ | ⟨d, a, rfl⟩ | ⟨d, ys, done, rfl, -, hdone, hread'⟩
  · cases happend
    exact .inr (.inr ⟨none, [c], [i], rfl, nofun, hrest.symm, .cons ⟨hitem, hread⟩ .nil⟩)
  · cases happend
  · cases happend
    refine .inr (.inr ⟨d, ys ++ [c], done ++ [i], ?_, List.append_ne_nil_of_right_ne_nil _ nofun,
      ?_, ?_⟩)
    · rw [Items.toList_ofList]
      rfl
    · rw [hdone, List.append_assoc]
      rfl
    · exact List.rel_append hread' (.cons ⟨hitem, hread⟩ .nil)

theorem read_trees_ok {d : Option ConfigScalar} (h : read (trees d ⟨size, item⟩) = .ok t) :
    SoFar item [] t :=
  foldlM_rest (SoFar item) (fun _ _ _ _ => soFar_step) _ (.inl ⟨rfl, rfl⟩) h

theorem read_trees_total (d : Option ConfigScalar) (h : ∀ i, ∃ c, ItemRead (item i) c) :
    ∃ t, read (trees d ⟨size, item⟩) = .ok t ∧ ∀ d a, t ≠ array d a := by
  have hstep : ∀ i (_ : List (Fin size)) (acc : ConfigTreeValue),
      (acc = fresh ∨ ∃ d items, acc = trees d items) → ∃ acc',
        addItem acc (item i) (read (item i)) = .ok acc' ∧
          (acc' = fresh ∨ ∃ d items, acc' = trees d items) := by
    intro i _ acc hacc
    obtain ⟨c, hitem, hread⟩ := h i
    obtain ⟨d, items, hadd⟩ := addItem_total hitem hread hacc
    exact ⟨_, hadd, .inr ⟨d, items, rfl⟩⟩
  obtain ⟨t, ht, hacc⟩ := foldlM_total (fun _ acc => acc = fresh ∨ ∃ d items, acc = trees d items)
    hstep (List.finRange size) (.inl rfl)
  refine ⟨t, ht, ?_⟩
  rcases hacc with rfl | ⟨d', items, rfl⟩ <;> exact fun _ _ => nofun

theorem item_read {ys : List ConfigTreeValue}
    (h : List.Forall₂ (fun i c => ItemRead (item i) c) (List.finRange size) ys) (i : Fin size) :
    ∃ c, ys[i.1]? = some c ∧ ItemRead (item i) c := by
  obtain ⟨hlength, hget⟩ := List.forall₂_iff_get.mp h
  rw [List.length_finRange] at hlength
  have hread := hget i (by rw [List.length_finRange]; exact i.2) (hlength ▸ i.2)
  rw [List.get_eq_getElem, List.getElem_finRange] at hread
  exact ⟨_, List.getElem?_eq_getElem (hlength ▸ i.2), hread⟩

/-- An array of nodes is alike what is read, if the items are. -/
theorem alike_trees {d d' : Option ConfigScalar} {ys : List ConfigTreeValue}
    (h : List.Forall₂ (fun i c => ItemRead (item i) c) (List.finRange size) ys) :
    Alike (trees d ⟨size, item⟩) (trees d' (Items.ofList ys)) ↔
      ∀ i c, read (item i) = .ok c → Alike (item i) c := by
  have hlength : size = ys.length := List.length_finRange.symm.trans h.length_eq
  have hfind := Items.find_ofList ys
  constructor
  · intro halike i c hc
    obtain ⟨c', hc', hread⟩ := item_read h i
    cases hc.symm.trans hread.2
    obtain ⟨c', hchild, hi⟩ := child_alike halike (e := .index i.1) (Items.find_of_lt i.2)
    cases hchild.symm.trans ((hfind i.1).trans hc')
    exact hi
  · intro halike
    refine alike_iff.mpr ⟨congrArg EffectiveValue.trees hlength.symm, fun e => ?_⟩
    cases e with
    | key k => exact .none
    | index j =>
      show Option.Rel Alike (Items.find ⟨size, item⟩ j) ((Items.ofList ys).find j)
      rw [hfind]
      by_cases hj : j < size
      · obtain ⟨c, hc, hread⟩ := item_read h ⟨j, hj⟩
        rw [hc, Items.find_of_lt hj]
        exact .some (halike ⟨j, hj⟩ c hread.2)
      · rw [List.getElem?_eq_none (hlength ▸ Nat.le_of_not_lt hj),
          Items.find_eq_none_iff.mpr (Nat.le_of_not_lt hj)]
        exact .none

end Items

/-! ### What is read of a map -/

section Entries
variable {keys : Finset String} {entry : {k // k ∈ keys} → ConfigTreeValue}

/-- A key is put into the map with what is read of its entry, unless it is there. -/
theorem addKey_ok {m m' : Keyed String ConfigTreeValue} {s : String}
    {r : Except ParserError ConfigTreeValue} (h : addKey m s c r = .ok m') :
    (m.find s ≠ none ∧ m' = m) ∨ m.find s = none ∧ ∃ t, r = .ok t ∧ m' = m.insert s t := by
  rw [addKey] at h
  cases hfind : m.find s with
  | none =>
    rw [hfind] at h
    cases hr : r with
    | error e =>
      rw [hr] at h
      cases h
    | ok t =>
      rw [hr] at h
      cases h
      exact .inr ⟨rfl, t, rfl, rfl⟩
  | some c' =>
    rw [hfind] at h
    cases hset : c.isSetOrDefault with
    | true =>
      rw [hset] at h
      cases h
    | false =>
      rw [hset] at h
      cases h
      exact .inl ⟨Option.some_ne_none c', rfl⟩

/-- The keys of a map that is read have no null characters. -/
theorem read_map_clean {d : Option ConfigScalar} (h : read (map d ⟨keys, entry⟩) = .ok t) :
    ∃ m, t = map none m ∧ ∀ k, m.find k ≠ none → '\x00' ∉ k.toList := by
  rw [ConfigTreeValue.read] at h
  cases hfold : (ordered keys).foldlM
      (fun m k => addKey m (cStr k.1) (entry k) (read (entry k))) .empty with
  | error e =>
    rw [hfold] at h
    cases h
  | ok m =>
    rw [hfold] at h
    cases h
    refine ⟨m, rfl, ?_⟩
    refine foldlM_rest (fun _ (m : Keyed String ConfigTreeValue) =>
      ∀ k, m.find k ≠ none → '\x00' ∉ k.toList) (fun k _ m m' hm hadd k' hk' => ?_) _
      (fun k hk => absurd (Keyed.find_empty k) hk) hfold
    rcases addKey_ok hadd with ⟨-, rfl⟩ | ⟨-, t, -, rfl⟩
    · exact hm k' hk'
    · by_cases hkey : k' = cStr k.1
      · rw [hkey]
        exact cStr_clean k.1
      · rw [Keyed.find_insert_of_ne hkey] at hk'
        exact hm k' hk'

/-- What a map has become after some of its keys, if they have no null characters. -/
def MapSoFar (entry : {k // k ∈ keys} → ConfigTreeValue) (rest : List {k // k ∈ keys})
    (m : Keyed String ConfigTreeValue) : Prop :=
  ∃ done, ordered keys = done ++ rest ∧ (∀ s, m.find s ≠ none → ∃ k ∈ done, k.1 = s) ∧
    ∀ k ∈ done, ∃ c, read (entry k) = .ok c ∧ m.find k.1 = some c

/-- The next key is not in the map yet. -/
theorem find_next {k : {k // k ∈ keys}} {rest : List {k // k ∈ keys}}
    {m : Keyed String ConfigTreeValue} (h : MapSoFar entry (k :: rest) m) : m.find k.1 = none := by
  obtain ⟨done, hdone, hkeys, -⟩ := h
  by_contra hfind
  obtain ⟨k', hk', heq⟩ := hkeys k.1 hfind
  have hnodup := nodup_ordered keys
  rw [hdone, List.nodup_append] at hnodup
  exact hnodup.2.2 k' hk' k List.mem_cons_self (Subtype.ext heq)

theorem mapSoFar_insert {k : {k // k ∈ keys}} {rest : List {k // k ∈ keys}}
    {m : Keyed String ConfigTreeValue} (h : MapSoFar entry (k :: rest) m)
    (hread : read (entry k) = .ok c) : MapSoFar entry rest (m.insert k.1 c) := by
  have hnext := find_next h
  obtain ⟨done, hdone, hkeys, hentries⟩ := h
  refine ⟨done ++ [k], by rw [hdone, List.append_assoc]; rfl, fun s hs => ?_, fun k' hk' => ?_⟩
  · by_cases hsk : s = k.1
    · exact ⟨k, List.mem_append_right _ List.mem_cons_self, hsk.symm⟩
    · rw [Keyed.find_insert_of_ne hsk] at hs
      obtain ⟨k', hk', heq⟩ := hkeys s hs
      exact ⟨k', List.mem_append_left _ hk', heq⟩
  · rcases List.mem_append.mp hk' with hk' | hk'
    · obtain ⟨c', hc', hfind⟩ := hentries k' hk'
      have hne : k'.1 ≠ k.1 := by
        intro heq
        rw [heq, hnext] at hfind
        cases hfind
      exact ⟨c', hc', (Keyed.find_insert_of_ne hne c m).trans hfind⟩
    · cases List.mem_singleton.mp hk'
      exact ⟨c, hread, Keyed.find_insert_self _ _ _⟩

theorem mapSoFar_empty : MapSoFar entry (ordered keys) .empty :=
  ⟨[], rfl, fun s hs => absurd (Keyed.find_empty s) hs, nofun⟩

theorem read_map_ok {d : Option ConfigScalar} (hclean : ∀ k ∈ keys, '\x00' ∉ k.toList)
    {m : Keyed String ConfigTreeValue} (h : read (map d ⟨keys, entry⟩) = .ok (map none m)) :
    MapSoFar entry [] m := by
  rw [ConfigTreeValue.read] at h
  cases hfold : (ordered keys).foldlM
      (fun m k => addKey m (cStr k.1) (entry k) (read (entry k))) .empty with
  | error e =>
    rw [hfold] at h
    cases h
  | ok m =>
    rw [hfold] at h
    cases h
    refine foldlM_rest (MapSoFar entry) (fun k rest m m' hm hadd => ?_) _ mapSoFar_empty hfold
    rw [(cStr_eq_iff k.1).mpr (hclean k.1 k.2)] at hadd
    rcases addKey_ok hadd with ⟨hfind, -⟩ | ⟨-, t, ht, rfl⟩
    · exact absurd (find_next hm) hfind
    · exact mapSoFar_insert hm ht

theorem read_map_total (d : Option ConfigScalar) (hclean : ∀ k ∈ keys, '\x00' ∉ k.toList)
    (h : ∀ k, ∃ c, read (entry k) = .ok c) :
    ∃ m, read (map d ⟨keys, entry⟩) = .ok (map none m) ∧ MapSoFar entry [] m := by
  have hstep : ∀ k rest m, MapSoFar entry (k :: rest) m → ∃ m',
      addKey m (cStr k.1) (entry k) (read (entry k)) = .ok m' ∧ MapSoFar entry rest m' := by
    intro k rest m hm
    obtain ⟨c, hc⟩ := h k
    refine ⟨m.insert k.1 c, ?_, mapSoFar_insert hm hc⟩
    rw [(cStr_eq_iff k.1).mpr (hclean k.1 k.2), addKey, find_next hm, hc]
    rfl
  obtain ⟨m, hm, hentries⟩ := foldlM_total (MapSoFar entry) hstep _ mapSoFar_empty
  refine ⟨m, ?_, hentries⟩
  rw [ConfigTreeValue.read, hm]
  rfl

theorem entry_read {m : Keyed String ConfigTreeValue} (h : MapSoFar entry [] m)
    (k : {k // k ∈ keys}) : ∃ c, read (entry k) = .ok c ∧ m.find k.1 = some c := by
  obtain ⟨done, hdone, -, hentries⟩ := h
  rw [List.append_nil] at hdone
  exact hentries k (hdone ▸ mem_ordered k)

/-- A map is alike what is read, if the entries are. -/
theorem alike_map {d d' : Option ConfigScalar} {m : Keyed String ConfigTreeValue}
    (h : MapSoFar entry [] m) : Alike (map d ⟨keys, entry⟩) (map d' m) ↔
      ∀ k c, read (entry k) = .ok c → Alike (entry k) c := by
  have hentries := entry_read h
  obtain ⟨done, -, hkeys, -⟩ := h
  constructor
  · intro halike k c hc
    obtain ⟨c', hc', hfind⟩ := hentries k
    cases hc.symm.trans hc'
    obtain ⟨c', hchild, hk⟩ := child_alike halike (e := .key k.1) (Keyed.find_of_mem k.2)
    cases hchild.symm.trans hfind
    exact hk
  · intro halike
    refine alike_iff.mpr ⟨rfl, fun e => ?_⟩
    cases e with
    | index i => exact .none
    | key s =>
      show Option.Rel Alike (Keyed.find ⟨keys, entry⟩ s) (m.find s)
      by_cases hs : s ∈ keys
      · obtain ⟨c, hc, hfind⟩ := hentries ⟨s, hs⟩
        rw [hfind, Keyed.find_of_mem hs]
        exact .some (halike ⟨s, hs⟩ c hc)
      · have hnone : m.find s = none := by
          by_contra hfind
          obtain ⟨k, -, rfl⟩ := hkeys s hfind
          exact hs k.2
        rw [hnone, Keyed.find_eq_none_iff.mpr hs]
        exact .none

end Entries

/-! ### What is read of a tree -/

/-- Nodes without nodes below them. -/
theorem alike_leaf (h : ∀ e, t.child e = none) (h' : ∀ e, t'.child e = none) :
    Alike t t' ↔ t'.effective = t.effective := by
  refine alike_iff.trans (and_iff_left fun e => ?_)
  rw [h, h']
  exact .none

theorem representable_leaf (h : ∀ e, t.child e = none) :
    t.Representable ↔ t.RepresentableNode := by
  refine everywhere_iff.trans (and_iff_left fun e c hc => ?_)
  rw [h] at hc
  cases hc

theorem child_unset (d : Option ConfigScalar) (e : Edge) : (unset d).child e = none := by
  cases e <;> rfl

theorem child_scalar (d : Option ConfigScalar) (v : ConfigScalar) (e : Edge) :
    (scalar d v).child e = none := by cases e <;> rfl

theorem child_array (d : Option ConfigScalar) (a : ConfigArray) (e : Edge) :
    (array d a).child e = none := by cases e <;> rfl

/-- What is read of an array is alike just when the array has values without null characters. -/
theorem alike_array (d : Option ConfigScalar) (a : ConfigArray) :
    Alike (array d a) (if a.values = [] then fresh else array none a.reported) ↔
      (array d a).RepresentableNode := by
  split
  next hnil =>
    refine (alike_leaf (child_array d a) (child_unset none)).trans ?_
    exact ⟨nofun, fun h => absurd hnil h.1⟩
  next hne =>
    rw [alike_leaf (child_array d a) (child_array none a.reported), RepresentableNode,
      ← reported_eq_iff]
    exact ⟨fun h => ⟨hne, EffectiveValue.array.inj h⟩, fun h => congrArg EffectiveValue.array h.2⟩

/-- **A representable tree** is read as one that is alike, by induction on the tree. -/
theorem read_of_representable (t : ConfigTreeValue) : t.Representable →
    ∃ t', read t = .ok t' ∧ Alike t t' := by
  induction t with
  | unset d =>
    intro h
    rw [representable_leaf (child_unset d)] at h
    cases d with
    | none => exact ⟨_, rfl, fun _ => rfl⟩
    | some v =>
      refine ⟨_, rfl, ?_⟩
      rw [alike_leaf (child_unset _) (child_scalar _ _)]
      exact (effective_reported v).mpr h
  | scalar d v =>
    intro h
    rw [representable_leaf (child_scalar d v)] at h
    refine ⟨_, rfl, ?_⟩
    rw [alike_leaf (child_scalar _ _) (child_scalar _ _)]
    exact (effective_reported v).mpr h
  | array d a =>
    intro h
    rw [representable_leaf (child_array d a)] at h
    exact ⟨_, read_array d a, (alike_array d a).mpr h⟩
  | trees d items ih =>
    intro h
    obtain ⟨size, item⟩ := items
    obtain ⟨⟨hsize, hitems⟩, hchild⟩ := everywhere_iff.mp h
    have hread : ∀ i, ∃ c, ItemRead (item i) c ∧ Alike (item i) c := by
      intro i
      obtain ⟨c, hc, halike⟩ := ih i (hchild (.index i.1) (item i) (Items.find_of_lt i.2))
      exact ⟨c, ⟨hitems i, hc⟩, halike⟩
    obtain ⟨t', ht', harray⟩ := read_trees_total d fun i => (hread i).imp fun _ hc => hc.1
    refine ⟨t', ht', ?_⟩
    rcases read_trees_ok ht' with ⟨-, hnil⟩ | ⟨d', a, rfl⟩ | ⟨d', ys, done, rfl, -, hdone, hys⟩
    · exact absurd (List.finRange_eq_nil_iff.mp hnil.symm) hsize
    · exact absurd rfl (harray d' a)
    · rw [List.append_nil] at hdone
      subst hdone
      refine (alike_trees hys).mpr fun i c hc => ?_
      obtain ⟨c', hc', halike⟩ := hread i
      cases hc.symm.trans hc'.2
      exact halike
  | map d m ih =>
    intro h
    obtain ⟨keys, entry⟩ := m
    obtain ⟨hclean, hchild⟩ := everywhere_iff.mp h
    have hread : ∀ k, ∃ c, read (entry k) = .ok c ∧ Alike (entry k) c := fun k =>
      ih k (hchild (.key k.1) (entry k) (Keyed.find_of_mem k.2))
    obtain ⟨m', hm', hentries⟩ := read_map_total d hclean fun k => (hread k).imp fun _ hc => hc.1
    refine ⟨_, hm', (alike_map hentries).mpr fun k c hc => ?_⟩
    obtain ⟨c', hc', halike⟩ := hread k
    cases hc.symm.trans hc'
    exact halike

/-- **A tree that is read as one that is alike** is representable, by induction on the tree. -/
theorem representable_of_read (t : ConfigTreeValue) : ∀ {t'}, read t = .ok t' → Alike t t' →
    t.Representable := by
  induction t with
  | unset d =>
    intro t' hread h
    rw [representable_leaf (child_unset d)]
    cases d with
    | none => trivial
    | some v =>
      cases hread
      rw [alike_leaf (child_unset _) (child_scalar _ _)] at h
      exact (effective_reported v).mp h
  | scalar d v =>
    intro t' hread h
    cases hread
    rw [alike_leaf (child_scalar _ _) (child_scalar _ _)] at h
    rw [representable_leaf (child_scalar d v)]
    exact (effective_reported v).mp h
  | array d a =>
    intro t' hread h
    rw [read_array] at hread
    cases hread
    rw [representable_leaf (child_array d a)]
    exact (alike_array d a).mp h
  | trees d items ih =>
    intro t' hread h
    obtain ⟨size, item⟩ := items
    have hvalue := (alike_iff.mp h).1
    rcases read_trees_ok hread with ⟨rfl, -⟩ | ⟨d', a, rfl⟩ | ⟨d', ys, done, rfl, hne, hdone, hys⟩
    · cases hvalue
    · cases hvalue
    · rw [List.append_nil] at hdone
      subst hdone
      refine everywhere_iff.mpr ⟨⟨fun hsize => ?_, fun i => ?_⟩, fun e c hc => ?_⟩
      · exact hne (List.finRange_eq_nil_iff.mpr hsize)
      · obtain ⟨c, -, hc⟩ := item_read hys i
        exact hc.1
      · cases e with
        | key k => cases hc
        | index i =>
          obtain ⟨hi, rfl⟩ := Items.find_eq_some_iff.mp hc
          obtain ⟨c, -, hc⟩ := item_read hys ⟨i, hi⟩
          exact ih ⟨i, hi⟩ hc.2 ((alike_trees hys).mp h ⟨i, hi⟩ c hc.2)
  | map d m ih =>
    intro t' hread h
    obtain ⟨keys, entry⟩ := m
    obtain ⟨m', rfl, hm'⟩ := read_map_clean hread
    have hclean : ∀ k ∈ keys, '\x00' ∉ k.toList := by
      intro k hk
      obtain ⟨c, hc, -⟩ := child_alike h (e := .key k) (Keyed.find_of_mem hk)
      exact hm' k (ne_of_eq_of_ne hc nofun)
    have hmap := read_map_ok hclean hread
    refine everywhere_iff.mpr ⟨hclean, fun e c hc => ?_⟩
    cases e with
    | index i => cases hc
    | key k =>
      obtain ⟨hk, rfl⟩ := Keyed.find_eq_some_iff.mp hc
      obtain ⟨c, hc, -⟩ := entry_read hmap ⟨k, hk⟩
      exact ih ⟨k, hk⟩ hc ((alike_map hmap).mp h ⟨k, hk⟩ c hc)

/-! ### The round trip -/

/-- Parsing what is serialized makes the same tree, and so does copying to a tree that is not set.
What the reader reports of the text that the writer made is a parameter. -/
structure RoundTrip (reported : List JsonEvent → List JsonEvent) (t : ConfigTreeValue) : Prop where
  parse : ∃ t', fresh.doParse (reported (t.doSerialize [])) [] = (t', none) ∧ Kept t t'
  copy : ∀ target, isSetOrDefault target = false → ∃ t',
    copy reported target t [] [] = (t', none) ∧ Kept t t'

theorem double_of_event {v : ConfigScalar} {bits : UInt64} (h : v.event = .double bits) :
    v.type = .double := by
  cases v with
  | double bits' => rfl
  | _ => cases h

/-- A tree without floating point values is written without them. -/
theorem double_not_mem (t : ConfigTreeValue) : t.NoDoubles → ∀ bits, .double bits ∉ writeTree t := by
  induction t with
  | unset d =>
    intro h bits hmem
    cases d with
    | none => cases List.mem_singleton.mp hmem
    | some v => exact (h [] _ rfl).1 (double_of_event (List.mem_singleton.mp hmem).symm)
  | scalar d v =>
    exact fun h bits hmem => (h [] _ rfl).1 (double_of_event (List.mem_singleton.mp hmem).symm)
  | array d a =>
    intro h bits hmem
    have hmem : .double bits ∈ a.events := by simpa [writeTree] using hmem
    cases a with
    | doubles l => exact (h [] _ rfl).2 rfl
    | ints l | bools l | strings l =>
      obtain ⟨x, -, hx⟩ := List.mem_map.mp hmem
      cases hx
  | trees d items ih =>
    intro h bits hmem
    obtain ⟨size, item⟩ := items
    obtain ⟨-, hchild⟩ := everywhere_iff.mp h
    have hmem : ∃ i, .double bits ∈ writeTree (item i) := by simpa [writeTree] using hmem
    obtain ⟨i, hi⟩ := hmem
    exact ih i (hchild (.index i.1) (item i) (Items.find_of_lt i.2)) bits hi
  | map d m ih =>
    intro h bits hmem
    obtain ⟨keys, entry⟩ := m
    obtain ⟨-, hchild⟩ := everywhere_iff.mp h
    have hmem : ∃ k ∈ ordered keys, .double bits ∈ writeTree (entry k) := by
      simpa [writeTree] using hmem
    obtain ⟨k, -, hk⟩ := hmem
    exact ih k (hchild (.key k.1) (entry k) (Keyed.find_of_mem k.2)) bits hk

theorem nullItems_of_representable (t : ConfigTreeValue) : t.Representable → t.nullItems = 0 := by
  induction t with
  | unset d | scalar d v | array d a => exact fun _ => rfl
  | trees d items ih =>
    intro h
    obtain ⟨size, item⟩ := items
    obtain ⟨⟨-, hitems⟩, hchild⟩ := everywhere_iff.mp h
    refine List.sum_eq_zero_iff_forall_eq_nat.mpr (List.forall_mem_map.mpr fun i _ => ?_)
    have hset : (item i).isSetOrDefault = true := by
      cases hset : (item i).isSetOrDefault with
      | true => rfl
      | false =>
        have hitem := hitems i
        rw [show Items.item ⟨size, item⟩ i = fresh from eq_fresh hset] at hitem
        rcases hitem with h | h <;> cases h
    have hi : nullItems (item i) = 0 :=
      ih i (hchild (.index i.1) (item i) (Items.find_of_lt i.2))
    rw [hi, hset]
    rfl
  | map d m ih =>
    intro h
    obtain ⟨keys, entry⟩ := m
    obtain ⟨-, hchild⟩ := everywhere_iff.mp h
    refine List.sum_eq_zero_iff_forall_eq_nat.mpr (List.forall_mem_map.mpr fun k _ => ?_)
    exact ih k (hchild (.key k.1) (entry k) (Keyed.find_of_mem k.2))

/-- **What comes of the text of a tree**: nothing, if there are nulls in arrays, and else the tree
that is read. -/
theorem doParse_eq_ok_iff {target : ConfigTreeValue} (htarget : target.isSetOrDefault = false) :
    target.doParse (writeTree t) [] = (t', none) ↔ t.nullItems = 0 ∧ read t = .ok t' := by
  rw [doParse]
  by_cases hnull : t.nullItems = 0
  · have hroot : fresh.at_ [] = some fresh := rfl
    have hrun := (Parser.run_writeTree t hnull).top hroot []
    rw [hrun]
    cases read t with
    | error e => exact iff_of_false nofun nofun
    | ok c =>
      have hmerge : target.mergeAt .merge [] (replaceAt c [] fresh) = (c, none) :=
        mergeAt_root (merge_of_not_set htarget c)
      dsimp only [Except.map]
      rw [hmerge]
      exact ⟨fun h => ⟨hnull, congrArg Except.ok (Prod.mk.inj h).1⟩,
        fun h => congrArg (·, none) (Except.ok.inj h.2)⟩
  · cases hrun : Parser.run ⟨fresh, [⟨some [], false, false⟩]⟩ (writeTree t) with
    | error e => exact iff_of_false nofun fun h => hnull h.1
    | ok p =>
      -- the context of the root is popped once, and the nulls pop more
      have hlength : p.stack.length + t.nullItems + 1 ≤ 1 := (Parser.length_writeTree t hrun).1
      omega

/-- **A tree is kept** by JSON just when it is representable. -/
theorem roundTrip_iff (reported : List JsonEvent → List JsonEvent)
    (hreported : ∀ events, (∀ bits, .double bits ∉ events) → reported events = events)
    (t : ConfigTreeValue) (ht : t.NoDoubles) : RoundTrip reported t ↔ t.Representable := by
  have htext : reported (t.doSerialize []) = writeTree t := hreported _ (double_not_mem t ht)
  have hkept : ∀ target, isSetOrDefault target = false →
      ((∃ t', target.doParse (writeTree t) [] = (t', none) ∧ Kept t t') ↔ t.Representable) := by
    intro target htarget
    constructor
    · rintro ⟨t', hparse, h⟩
      obtain ⟨-, hread⟩ := (doParse_eq_ok_iff htarget).mp hparse
      exact representable_of_read t hread (kept_iff_alike.mp h)
    · intro h
      obtain ⟨t', hread, halike⟩ := read_of_representable t h
      exact ⟨t', (doParse_eq_ok_iff htarget).mpr ⟨nullItems_of_representable t h, hread⟩,
        kept_iff_alike.mpr halike⟩
  constructor
  · intro h
    have hparse := h.parse
    rw [htext] at hparse
    exact (hkept fresh rfl).mp hparse
  · intro h
    refine ⟨?_, fun target htarget => ?_⟩
    · rw [htext]
      exact (hkept fresh rfl).mpr h
    · rw [ConfigTreeValue.copy, htext]
      exact (hkept target htarget).mpr h

section Sample

/-- An array with a map in it. -/
def sampleArray : ConfigTreeValue := trees none (Items.ofList [map none .empty])

theorem roundTrip_sample : RoundTrip id sampleArray ↔ sampleArray.Representable := by
  refine roundTrip_iff id (fun _ _ => rfl) sampleArray ?_
  refine everywhere_iff.mpr ⟨⟨nofun, nofun⟩, fun e c hc => ?_⟩
  have hc : c = map none .empty := by
    cases e with
    | key k => cases hc
    | index i =>
      obtain ⟨hi, hc⟩ := List.getElem?_eq_some_iff.mp ((Items.find_ofList _ i).symm.trans hc)
      exact hc.symm.trans (List.getElem_singleton hi)
  rw [hc]
  refine everywhere_iff.mpr ⟨⟨nofun, nofun⟩, fun e c hc => ?_⟩
  cases e with
  | index i => cases hc
  | key k =>
    rw [show (map none .empty).child (.key k) = none from Keyed.find_empty k] at hc
    cases hc

/-- **An array with an unset node in it** is written as `[null]`, which is not parsed. -/
theorem unset_item_not_kept : ¬ RoundTrip id (trees none (Items.ofList [fresh])) := by
  intro h
  obtain ⟨t', hparse, -⟩ := h.parse
  have hrun : Parser.run ⟨fresh, [⟨some [], false, false⟩]⟩
      (writeTree (trees none (Items.ofList [fresh]))) = .error .outOfRange := rfl
  have hparse : doParse fresh (writeTree (trees none (Items.ofList [fresh]))) [] = (t', none) :=
    hparse
  rw [doParse, hrun] at hparse
  cases hparse

end Sample

end ConfigTreeValue

end Hatn.Base
