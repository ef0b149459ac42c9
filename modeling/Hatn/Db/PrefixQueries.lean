import Hatn.Db.SearchRanges

/-!
# Queries by a prefix of a string

A string field is queried by a prefix with an interval from the prefix to what is `Next` to it.
The upper bound is the form of the prefix with its last symbol incremented.  That symbol is a hex
digit, and the forms in between are those that begin with the form of the prefix, so that a range
query takes the strings that begin with the prefix.  The form of the empty string is a mark that
no other form begins with: as a prefix it takes the empty string only.
-/

namespace Hatn.Db

open Query Common Hatn.Order

namespace IndexKeySearch

/-- `makeInterval` of a value and `IntervalType::Next`. -/
def nextInterval (p : List UInt8) : Query.Interval (List UInt8) := ⟨⟨p, .closed⟩, ⟨[], .next⟩⟩

/-- The condition on a string field to begin with a prefix. -/
def beginsWith (order : Query.Order) (p : List UInt8) : Field :=
  ⟨.plain .string, .in_, .interval (nextInterval p), order⟩

/-! ### The form of a prefix -/

theorem incrementLast_concat : ∀ (x : Key) (c : UInt8), incrementLast (x ++ [c]) = x ++ [c + 1]
  | [], _ => rfl
  | [_], _ => rfl
  | d :: d' :: x, c => congrArg (d :: ·) (incrementLast_concat (d' :: x) c)

/-- A symbol that is incremented without an overflow is right below the new one. -/
theorem covBy_increment {c : UInt8} (h : c < 255) : c ⋖ c + 1 := by
  have hc : c.toNat < 255 := UInt8.lt_iff_toNat_lt.mp h
  have hinc : (c + 1).toNat = c.toNat + 1 := by
    rw [UInt8.toNat_add, UInt8.toNat_one, Nat.mod_eq_of_lt (by omega)]
  refine ⟨UInt8.lt_iff_toNat_lt.mpr (by omega), fun d hd hd' => ?_⟩
  rw [UInt8.lt_iff_toNat_lt] at hd hd'
  omega

/-- The symbols of forms stay clear of the last one. -/
theorem digitChar_lt_last {d : Nat} (h : d < 16) : digitChar d < 255 := by
  rw [UInt8.lt_iff_toNat_lt, digitChar_toNat h]
  have hlast : (255 : UInt8).toNat = 255 := rfl
  split <;> omega

theorem stringToBuf_lt_last (s : List UInt8) : ∀ c ∈ stringToBuf s, c < 255 := by
  intro c hc
  cases s with
  | nil =>
    rw [List.mem_singleton.mp hc]
    decide
  | cons b s =>
    obtain ⟨b', -, hb'⟩ := List.mem_flatMap.mp hc
    obtain ⟨d, hd, rfl⟩ := List.mem_map.mp hb'
    exact digitChar_lt_last (padded_lt_base (by norm_num) 2 b'.toNat d hd)

/-- **Up to the incremented form** there are the keys that begin with the form. -/
theorem between_increment_iff {w k : Key} (hne : w ≠ []) (hlast : ∀ c ∈ w, c < 255) :
    w ≤ k ∧ k < incrementLast w ↔ w <+: k := by
  obtain ⟨x, c, rfl⟩ := (List.eq_nil_or_concat' w).resolve_left hne
  rw [incrementLast_concat]
  exact between_iff (covBy_increment (hlast c (by simp)))

theorem incrementLast_clean {w : Key} (hlast : ∀ c ∈ w, c < 255) (hw : Clean w) :
    Clean (incrementLast w) := by
  rcases List.eq_nil_or_concat' w with rfl | ⟨x, c, rfl⟩
  · exact hw
  · have hc := hw c (by simp)
    rw [incrementLast_concat]
    intro d hd
    rcases List.mem_append.mp hd with hd | hd
    · exact hw d (List.mem_append_left _ hd)
    · rw [List.mem_singleton.mp hd]
      exact hc.trans (covBy_increment (hlast c (by simp))).lt

/-! ### Forms that begin with a form -/

/-- Bytes are written with two digits each, so that prefixes are those of the bytes. -/
theorem flatMap_hexByte_prefix : ∀ {p v : List UInt8},
    p.flatMap hexByte <+: v.flatMap hexByte ↔ p <+: v := by
  intro p
  induction p with
  | nil => exact fun {v} => iff_of_true List.nil_prefix List.nil_prefix
  | cons a p ih =>
    intro v
    have hlen : ∀ c : UInt8, (hexByte c).length = 2 := fun c =>
      fmtHex_length_of_lt (by have := c.toNat_lt; omega)
    cases v with
    | nil =>
      refine iff_of_false (fun h => ?_) (fun h => by simpa using h.length_le)
      have hle := h.length_le
      simp [hlen] at hle
    | cons b v =>
      rw [List.flatMap_cons, List.flatMap_cons, List.cons_prefix_cons, ← ih (v := v)]
      constructor
      · intro h
        obtain ⟨r, hr⟩ := h
        rw [List.append_assoc] at hr
        obtain ⟨hhead, hrest⟩ := List.append_inj hr ((hlen a).trans (hlen b).symm)
        exact ⟨UInt8.toNat_inj.mp (fmtHex_inj hhead), r, hrest⟩
      · rintro ⟨rfl, h⟩
        exact (List.prefix_append_right_inj _).mpr h

/-- **A form begins with the form of a prefix** that is not empty just where the string begins
with the prefix; with the mark of the empty string only where the string is empty. -/
theorem stringToBuf_prefix_iff (p v : List UInt8) :
    stringToBuf p <+: stringToBuf v ↔ if p = [] then v = [] else p <+: v := by
  cases p with
  | nil =>
    rw [if_pos rfl]
    cases v with
    | nil => exact iff_of_true (List.prefix_refl _) rfl
    | cons b v =>
      refine iff_of_false (fun h => ?_) (List.cons_ne_nil b v)
      -- the mark is no digit
      have hmark : emptyChar ∈ (b :: v).flatMap hexByte := h.subset List.mem_cons_self
      exact absurd (two_lt_hexBytes _ _ hmark) (by decide)
  | cons a p =>
    rw [if_neg (List.cons_ne_nil a p), stringToBuf_cons]
    cases v with
    | nil =>
      refine iff_of_false (fun h => ?_) (fun h => by simpa using h.length_le)
      have hmem : ∃ c, c ∈ hexByte a := List.exists_mem_of_length_pos (by
        rw [hexByte, fmtHex_length_of_lt (by have := a.toNat_lt; omega)]
        norm_num)
      obtain ⟨c, hc⟩ := hmem
      have hc' : c ∈ (a :: p).flatMap hexByte := List.mem_flatMap.mpr ⟨a, List.mem_cons_self, hc⟩
      have hmark : c = emptyChar := List.mem_singleton.mp (h.subset hc')
      have hdigit := two_lt_hexBytes _ c hc'
      rw [hmark] at hdigit
      exact absurd hdigit (by decide)
    | cons b v => exact flatMap_hexByte_prefix

/-! ### The range of the condition -/

theorem plan_beginsWith (order : Query.Order) (p : List UInt8) (prefix_ prevFrom prevTo : Key) :
    (plan (beginsWith order p) prefix_ prevFrom prevTo).bounds =
      .range ((prefix_ ++ [separatorChar]) ++ (stringToBuf p ++ [separatorChar]))
        ((prefix_ ++ [separatorChar]) ++ (incrementLast (stringToBuf p) ++ [separatorChar])) := by
  rw [← List.append_assoc, ← List.append_assoc]
  rfl

/-- The key of an entry whose field has the value, with what is before and behind the field. -/
def stringEntry (prefix_ rest value : Key) (v : List UInt8) : Entry :=
  ⟨prefix_ ++ separatorChar :: (fieldToStringBuf .string (some v) ++ separatorChar :: rest), value⟩

/-- **What the range takes**: the strings whose form begins with that of the prefix. -/
theorem contains_beginsWith (order : Query.Order) (p v : List UInt8)
    (prefix_ prevFrom prevTo rest value : Key) :
    (plan (beginsWith order p) prefix_ prevFrom prevTo).bounds.contains
      (stringEntry prefix_ rest value v) = true ↔ stringToBuf p <+: stringToBuf v := by
  have hclean : ∀ s : List UInt8, Clean (stringToBuf s) := fun s =>
    separatorCharPlus_lt_value (t := .string) s
  have hpart : Part prefix_ (stringToBuf v) (stringEntry prefix_ rest value v) :=
    ⟨hclean v, rest, rfl⟩
  have hp := incrementLast_clean (stringToBuf_lt_last p) (hclean p)
  have hne : stringToBuf p ≠ [] := valueToStringBuf_ne_nil (t := .string) p
  rw [plan_beginsWith, Bounds.contains, decide_eq_true_iff, Bounds.range,
    hpart.lower_le (hclean p), hpart.lt_lower hp,
    between_increment_iff hne (stringToBuf_lt_last p)]

/-- **Where the range takes the strings that begin with the prefix**: the prefix is not empty,
or the string is. -/
theorem contains_beginsWith_iff (order : Query.Order) (p v : List UInt8)
    (prefix_ prevFrom prevTo rest value : Key) :
    ((plan (beginsWith order p) prefix_ prevFrom prevTo).bounds.contains
      (stringEntry prefix_ rest value v) = true ↔ p <+: v) ↔ p ≠ [] ∨ v = [] := by
  rw [contains_beginsWith, stringToBuf_prefix_iff]
  by_cases hp : p = []
  · rw [if_pos hp, hp]
    simp
  · rw [if_neg hp]
    exact iff_of_true Iff.rfl (.inl hp)

/-- A cursor in front of the first field: a topic and the id of an index. -/
def sampleStart : Key := [116, 0, 49, 50, 51, 52, 53, 54, 55, 56]

/-- **The empty prefix** leaves out a string. -/
theorem not_contains_beginsWith_nil :
    ¬ ((plan (beginsWith .asc []) sampleStart (sampleStart ++ [0])
      (sampleStart ++ [1])).bounds.contains (stringEntry sampleStart [] [] [97]) = true ↔
        ([] : List UInt8) <+: [97]) := by
  decide

end IndexKeySearch

end Hatn.Db
