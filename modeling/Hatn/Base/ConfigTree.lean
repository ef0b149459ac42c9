import Mathlib.Algebra.Group.Int.Defs
import Mathlib.Algebra.Group.Nat.Defs
import Mathlib.Data.List.Basic
import Mathlib.Logic.Function.Basic

/-!
# Configuration trees

The trees that the files of a configuration are read into, and how one tree is merged into
another one.  Two notions say what a merge does to the value at a path: the other tree `touches`
the path, or it does not and the value stays; and a value of the other tree is there afterwards,
where the mode for arrays is `Steady` on the path.

A key of a map is one section of a path: it is not empty and without the separator.
-/

namespace Hatn.Base

/-- Values without parts.  A floating point number is its bits. -/
inductive Scalar
  | int (n : Int)
  | double (bits : Nat)
  | bool (b : Bool)
  | string (s : String)
  deriving DecidableEq

inductive ScalarType
  | int
  | double
  | bool
  | string
  deriving DecidableEq

def Scalar.type : Scalar → ScalarType
  | int _ => .int
  | double _ => .double
  | bool _ => .bool
  | string _ => .string

abbrev ScalarType.Value (type : ScalarType) : Type := { v : Scalar // v.type = type }

/-- `config_tree::ArrayMerge`. -/
inductive ArrayMerge
  | merge
  | append
  | prepend
  | override
  | preserve
  deriving DecidableEq

/-- A map has its keys and, for each of them, an entry. -/
inductive ConfigTree
  | unset
  | scalar (v : Scalar)
  | array (type : ScalarType) (values : List type.Value)
  | trees (size : Nat) (item : Nat → ConfigTree)
  | map (keys : List String) (entry : String → ConfigTree)

/-- A section of a path: the key of a map, an item of an array of trees, or an element of another
array. -/
inductive Section
  | key (k : String)
  | item (i : Nat)
  | element (i : Nat)
  deriving DecidableEq

abbrev ConfigTreePath := List Section

namespace Section

/-- The text of the section in the path. -/
def text : Section → String
  | key k => k
  | item i => toString i
  | element i => toString i

@[simp] theorem text_key (k : String) : (key k).text = k := rfl

end Section

/-- `std::stoi`: white space, a sign, and the digits up to the first other character. -/
def stoi (s : String) : Option Int :=
  let rest := s.toList.dropWhile fun c => c = ' ' ∨ 9 ≤ c.toNat ∧ c.toNat ≤ 13
  let digits (l : List Char) : Option Nat :=
    let ds := l.takeWhile Char.isDigit
    if ds = [] then none else some (ds.foldl (fun n d => 10 * n + (d.toNat - 48)) 0)
  let number : Option Int :=
    match rest with
    | '-' :: l => (digits l).map fun n => -(n : Int)
    | '+' :: l => (digits l).map fun n => (n : Int)
    | l => (digits l).map fun n => (n : Int)
  number.filter fun n => -2 ^ 31 ≤ n ∧ n < 2 ^ 31

/-- `ConfigTreePath::numberAt`.  A negative number is converted to a large one. -/
def Section.number : Section → Option Nat
  | .key k => (stoi k).map fun n => (n % 2 ^ 64).toNat
  | .item i => some i
  | .element i => some i

namespace ArrayMerge

/-- `ArrayViewT::merge` of arrays without trees. -/
def mergeArrays {α : Type} : ArrayMerge → List α → List α → List α
  | merge, self, other => other ++ self.drop other.length
  | append, self, other => self ++ other
  | prepend, self, other => other ++ self
  | override, _, other => other
  | preserve, self, _ => self

end ArrayMerge

namespace ConfigTree

def isSet : ConfigTree → Bool
  | unset => false
  | _ => true

/-- `ConfigTree::merge` at the root. -/
def merge (mode : ArrayMerge) : ConfigTree → ConfigTree → ConfigTree
  | unset, other => other
  | current, unset => current
  | map keys entry, map keys' entry' =>
    map (keys ++ keys'.filter (· ∉ keys)) fun k =>
      if k ∈ keys then
        if k ∈ keys' then merge mode (entry k) (entry' k) else entry k
      else entry' k
  | trees size item, trees size' item' =>
    match mode with
    | .merge => trees (max size size') fun i =>
        if i < size then
          if i < size' then merge mode (item i) (item' i) else item i
        else item' i
    | .append => trees (size + size') fun i => if i < size then item i else item' (i - size)
    | .prepend => trees (size' + size) fun i => if i < size' then item' i else item (i - size')
    | .override => trees size' item'
    | .preserve => trees size item
  | array type values, array type' values' =>
    if h : type' = type then array type (mode.mergeArrays values (h ▸ values'))
    else array type' values'
  | _, other => other

/-- `ConfigTree::merge` at a path: the tree there is got with `autoCreatePath`, sections that are
no maps are made ones. -/
def modifyAt {ε : Type} (outOfRange : ε) (f : ConfigTree → ConfigTree) :
    ConfigTreePath → ConfigTree → Except ε ConfigTree
  | [], t => .ok (f t)
  | s :: path, map keys entry =>
    (modifyAt outOfRange f path (if s.text ∈ keys then entry s.text else unset)).map fun t =>
      map (if s.text ∈ keys then keys else keys ++ [s.text]) (Function.update entry s.text t)
  | s :: path, trees size item =>
    match s.number with
    | some i =>
      if i < size then
        (modifyAt outOfRange f path (item i)).map fun t => trees size (Function.update item i t)
      else .error outOfRange
    | none =>
      (modifyAt outOfRange f path unset).map fun t => map [s.text] fun _ => t
  | s :: path, _ => (modifyAt outOfRange f path unset).map fun t => map [s.text] fun _ => t

/-! ### Values at paths -/

def valueAt : ConfigTree → ConfigTreePath → Option Scalar
  | scalar v, [] => some v
  | array _ values, [.element i] => values[i]?.map Subtype.val
  | trees size item, .item i :: path => if i < size then (item i).valueAt path else none
  | map keys entry, .key k :: path => if k ∈ keys then (entry k).valueAt path else none
  | _, _ => none
termination_by structural _ path => path

/-- The tree has something at the path or on the way to it, apart from maps on the way. -/
def touches : ConfigTree → ConfigTreePath → Bool
  | unset, _ => false
  | map keys entry, .key k :: path => decide (k ∈ keys) && (entry k).touches path
  | _, _ => true
termination_by structural _ path => path

/-- The path is there, up to its end. -/
def leadsTo : ConfigTree → ConfigTreePath → Prop
  | _, [] => True
  | map keys entry, .key k :: path => k ∈ keys ∧ (entry k).leadsTo path
  | trees size item, .item i :: path => i < size ∧ (item i).leadsTo path
  | _, _ => False
termination_by structural _ path => path

/-- The tree has something on the way to the path, apart from maps. -/
def cuts : ConfigTree → ConfigTreePath → Bool
  | _, [] => false
  | unset, _ => false
  | map keys entry, .key k :: path => decide (k ∈ keys) && (entry k).cuts path
  | _, _ => true
termination_by structural _ path => path

end ConfigTree

/-- A merge in this mode leaves the other tree's arrays at their places of the path. -/
def Steady (mode : ArrayMerge) (path : ConfigTreePath) : Prop :=
  (mode ≠ .append ∧ mode ≠ .preserve) ∨ ∀ s ∈ path, ∃ k, s = .key k

theorem Steady.tail {mode : ArrayMerge} {s : Section} {path : ConfigTreePath}
    (h : Steady mode (s :: path)) : Steady mode path :=
  h.imp id fun h s hs => h s (.tail _ hs)

theorem Steady.of_append {mode : ArrayMerge} {q r : ConfigTreePath} (h : Steady mode (q ++ r)) :
    Steady mode q :=
  h.imp id fun h s hs => h s (List.mem_append_left r hs)

/-- On an array the mode moves and leaves out nothing of the other tree. -/
theorem Steady.mode {mode : ArrayMerge} {s : Section} {path : ConfigTreePath}
    (h : Steady mode (s :: path)) (hs : ∀ k, s ≠ .key k) : mode ≠ .append ∧ mode ≠ .preserve :=
  h.resolve_right fun h => (h s (.head _)).elim hs

namespace ConfigTree

variable {mode : ArrayMerge} {current other : ConfigTree} {path : ConfigTreePath} {v : Scalar}

@[simp] theorem merge_unset_left : merge mode unset other = other := by cases other <;> rfl

@[simp] theorem merge_unset_right : merge mode current unset = current := by
  cases current <;> rfl

@[simp] theorem touches_unset : unset.touches path = false := by cases path <;> rfl

theorem merge_map (keys keys' : List String) (entry entry' : String → ConfigTree) :
    merge mode (map keys entry) (map keys' entry') =
      map (keys ++ keys'.filter (· ∉ keys)) fun k =>
        if k ∈ keys then
          if k ∈ keys' then merge mode (entry k) (entry' k) else entry k
        else entry' k := rfl

theorem mem_merged_keys {keys keys' : List String} {k : String} :
    k ∈ keys ++ keys'.filter (· ∉ keys) ↔ k ∈ keys ∨ k ∈ keys' := by
  grind

theorem valueAt_map_eq_some {keys : List String} {entry : String → ConfigTree} {s : Section}
    (h : (map keys entry).valueAt (s :: path) = some v) :
    ∃ k, s = .key k ∧ k ∈ keys ∧ (entry k).valueAt path = some v := by
  cases s with
  | key k =>
    rw [valueAt, Option.ite_none_right_eq_some] at h
    exact ⟨k, rfl, h⟩
  | item i => cases h
  | element i => cases h

theorem valueAt_trees_eq_some {size : Nat} {item : Nat → ConfigTree} {s : Section}
    (h : (trees size item).valueAt (s :: path) = some v) :
    ∃ i, s = .item i ∧ i < size ∧ (item i).valueAt path = some v := by
  cases s with
  | item i =>
    rw [valueAt, Option.ite_none_right_eq_some] at h
    exact ⟨i, rfl, h⟩
  | key k => cases h
  | element i => cases h

theorem valueAt_array_eq_some {type : ScalarType} {values : List type.Value} {s : Section}
    (h : (array type values).valueAt (s :: path) = some v) :
    ∃ i, s = .element i ∧ path = [] ∧ values[i]?.map Subtype.val = some v := by
  cases s with
  | element i =>
    cases path with
    | nil => exact ⟨i, rfl, rfl, h⟩
    | cons s path => cases h
  | key k => cases h
  | item i => cases h

theorem mergeArrays_getElem? {α : Type} {i : Nat} {a : α} {self other : List α}
    (hmode : mode ≠ .append ∧ mode ≠ .preserve) (h : other[i]? = some a) :
    (mode.mergeArrays self other)[i]? = some a := by
  obtain ⟨hi, -⟩ := List.getElem?_eq_some_iff.mp h
  cases mode with
  | merge | prepend => exact (List.getElem?_append_left hi).trans h
  | override => exact h
  | append => exact (hmode.1 rfl).elim
  | preserve => exact (hmode.2 rfl).elim

/-- **A value of the other tree** is there after a steady merge. -/
theorem valueAt_merge_right (hv : other.valueAt path = some v) (h : Steady mode path) :
    (merge mode current other).valueAt path = some v := by
  induction path generalizing current other with
  | nil =>
    cases other with
    | scalar v' => cases current <;> exact hv
    | _ => cases hv
  | cons s path ih =>
    cases other with
    | unset | scalar v' => cases hv
    | array type' values' =>
      obtain ⟨i, rfl, rfl, hi⟩ := valueAt_array_eq_some hv
      cases current with
      | array type values =>
        rw [merge]
        split
        · rename_i htype
          subst htype
          obtain ⟨a, ha, hav⟩ := Option.map_eq_some_iff.mp hi
          have hmode := h.mode (fun k => nofun)
          exact Option.map_eq_some_iff.mpr ⟨a, mergeArrays_getElem? hmode ha, hav⟩
        · exact hv
      | _ => exact hv
    | trees size' item' =>
      obtain ⟨i, rfl, hi, hiv⟩ := valueAt_trees_eq_some hv
      cases current with
      | trees size item =>
        have hmode := h.mode (fun k => nofun)
        cases mode with
        | merge =>
          refine (if_pos (Nat.lt_of_lt_of_le hi (Nat.le_max_right ..))).trans ?_
          beta_reduce
          split
          · exact ih hiv h.tail
          · exact hiv
        | prepend =>
          refine (if_pos (Nat.lt_add_right size hi)).trans ?_
          beta_reduce
          rw [if_pos hi]
          exact hiv
        | override => exact hv
        | append => exact (hmode.1 rfl).elim
        | preserve => exact (hmode.2 rfl).elim
      | _ => exact hv
    | map keys' entry' =>
      obtain ⟨k, rfl, hk, hkv⟩ := valueAt_map_eq_some hv
      cases current with
      | map keys entry =>
        refine (if_pos (mem_merged_keys.mpr (.inr hk))).trans ?_
        beta_reduce
        split
        · exact ih hkv h.tail
        · exact hkv
      | _ => exact hv

/-- **A value that the other tree does not touch** stays. -/
theorem valueAt_merge_left (hv : current.valueAt path = some v)
    (h : other.touches path = false) : (merge mode current other).valueAt path = some v := by
  induction path generalizing current other with
  | nil =>
    cases other with
    | unset => rwa [merge_unset_right]
    | _ => cases h
  | cons s path ih =>
    cases other with
    | unset => rwa [merge_unset_right]
    | scalar v' | array type' values' | trees size' item' => cases h
    | map keys' entry' =>
      cases s with
      | item i | element i => cases h
      | key k =>
        cases current with
        | map keys entry =>
          obtain ⟨k, hks, hk, hkv⟩ := valueAt_map_eq_some hv
          cases hks
          refine (if_pos (mem_merged_keys.mpr (.inl hk))).trans ?_
          beta_reduce
          rw [if_pos hk]
          split
          · rename_i hk'
            exact ih hkv ((Bool.and_eq_false_iff.mp h).resolve_left (by simpa using hk'))
          · exact hkv
        | _ => cases hv

/-- What neither tree touches, their merge does not. -/
theorem touches_merge (h : current.touches path = false) (h' : other.touches path = false) :
    (merge mode current other).touches path = false := by
  induction path generalizing current other with
  | nil =>
    cases other with
    | unset => rwa [merge_unset_right]
    | _ => cases h'
  | cons s path ih =>
    cases other with
    | unset => rwa [merge_unset_right]
    | scalar v' | array type' values' | trees size' item' => cases h'
    | map keys' entry' =>
      cases current with
      | unset => rwa [merge_unset_left]
      | scalar v | array type values | trees size item => cases h
      | map keys entry =>
        cases s with
        | item i | element i => cases h
        | key k =>
          have hk := Bool.and_eq_false_iff.mp h
          have hk' := Bool.and_eq_false_iff.mp h'
          rw [merge_map, touches]
          refine Bool.and_eq_false_iff.mpr ?_
          by_cases hin : k ∈ keys <;> by_cases hin' : k ∈ keys'
          · rw [if_pos hin, if_pos hin']
            exact .inr (ih (hk.resolve_left (by simpa using hin))
              (hk'.resolve_left (by simpa using hin')))
          · rw [if_pos hin, if_neg hin']
            exact .inr (hk.resolve_left (by simpa using hin))
          · rw [if_neg hin]
            exact .inr (hk'.resolve_left (by simpa using hin'))
          · refine .inl (decide_eq_false ?_)
            rw [mem_merged_keys]
            exact fun hor => hor.elim hin hin'

/-! ### Ways that stay -/

theorem leadsTo_merge_right (hv : other.leadsTo path) (h : Steady mode path) :
    (merge mode current other).leadsTo path := by
  induction path generalizing current other with
  | nil => trivial
  | cons s path ih =>
    cases other with
    | unset | scalar v' | array type' values' => cases s <;> cases hv
    | trees size' item' =>
      cases s with
      | key k | element i => cases hv
      | item i =>
        obtain ⟨hi, hiv⟩ := hv
        cases current with
        | trees size item =>
          have hmode := h.mode (fun k => nofun)
          cases mode with
          | merge =>
            refine ⟨Nat.lt_of_lt_of_le hi (Nat.le_max_right ..), ?_⟩
            beta_reduce
            split
            · exact ih hiv h.tail
            · exact hiv
          | prepend =>
            refine ⟨Nat.lt_add_right size hi, ?_⟩
            beta_reduce
            rwa [if_pos hi]
          | override => exact ⟨hi, hiv⟩
          | append => exact (hmode.1 rfl).elim
          | preserve => exact (hmode.2 rfl).elim
        | _ => exact ⟨hi, hiv⟩
    | map keys' entry' =>
      cases s with
      | item i | element i => cases hv
      | key k =>
        obtain ⟨hk, hkv⟩ := hv
        cases current with
        | map keys entry =>
          refine ⟨mem_merged_keys.mpr (.inr hk), ?_⟩
          beta_reduce
          split
          · exact ih hkv h.tail
          · exact hkv
        | _ => exact ⟨hk, hkv⟩

theorem leadsTo_merge_left (hv : current.leadsTo path) (h : other.cuts path = false) :
    (merge mode current other).leadsTo path := by
  induction path generalizing current other with
  | nil => trivial
  | cons s path ih =>
    cases other with
    | unset => rwa [merge_unset_right]
    | scalar v' | array type' values' | trees size' item' => cases h
    | map keys' entry' =>
      cases s with
      | item i | element i => cases h
      | key k =>
        cases current with
        | map keys entry =>
          obtain ⟨hk, hkv⟩ := hv
          refine ⟨mem_merged_keys.mpr (.inl hk), ?_⟩
          beta_reduce
          rw [if_pos hk]
          split
          · rename_i hk'
            exact ih hkv ((Bool.and_eq_false_iff.mp h).resolve_left (by simpa using hk'))
          · exact hkv
        | _ => cases hv

end ConfigTree

end Hatn.Base
