import Hatn.Dataunit.ObjectId
import Mathlib.Data.ZMod.Defs

/-!
# The text form of an object id

`parse` reads the three parts of an object id one behind the other with `std::from_chars`,
each from where the part before it has ended.  A part that ends early leaves a symbol that
is no hex digit in front of the next one, and that is refused.  Behind the last part nothing
is read any more, so that a single digit of it is enough.

The text of an id whose parts fit is read back, and such texts have the order of the ids
(`text_embeds`).  `parsesText_iff` says for which strings `parse` accepts just the texts of
object ids: for all but those with a symbol that is no hex digit behind the first digit of the
last part.
-/

namespace Hatn.Dataunit

open Hatn.Order Hatn.Common

namespace ObjectId

/-- `reset` -/
def reset : ObjectId := ⟨0, 0, 0⟩

/-- `parse` into an id: whether it is accepted, and the id behind it. -/
def parseInto (id : ObjectId) (buf : List UInt8) : Bool × ObjectId :=
  if buf.length ≠ length then (false, reset)
  else
    match fromChars 11 buf with
    | none => (false, reset)
    | some (timepoint, ptr) =>
      let id := { id with timepoint := Fin.ofNat _ timepoint }
      match fromChars 6 ptr with
      | none => (false, reset)
      | some (seq, ptr) =>
        let id := { id with seq := Fin.ofNat _ seq }
        match fromChars 8 ptr with
        | none => (false, reset)
        | some (rand, _) => (true, { id with rand := Fin.ofNat _ rand })

/-- **An id does not matter** to what is parsed into it. -/
theorem parseInto_eq (id : ObjectId) (buf : List UInt8) :
    id.parseInto buf =
      match parse buf with
      | some x => (true, x)
      | none => (false, reset) := by
  rw [parseInto, parse]
  by_cases h : buf.length ≠ length
  · rw [if_pos h, if_pos h]
  · rw [if_neg h, if_neg h]
    cases fromChars 11 buf with
    | none => rfl
    | some p =>
      simp only [Option.bind_eq_bind, Option.bind_some]
      cases fromChars 6 p.2 with
      | none => rfl
      | some q =>
        simp only [Option.bind_some]
        cases fromChars 8 q.2 with
        | none => rfl
        | some r => rfl

/-- **Texts stand for their ids**: a text is read back into any id as the id it is of, and the
texts are ordered as the ids are. -/
theorem text_embeds {a b : ObjectId} (ha : a.Fits) (hb : b.Fits) (id : ObjectId) :
    id.parseInto a.serialize = (true, a) ∧ (a.lt b = true ↔ a.serialize < b.serialize) := by
  constructor
  · rw [parseInto_eq, parse_serialize ha]
  · rw [lt_eq, serialize_lt ha hb]

theorem text_embeds_widest :
    reset.parseInto (serialize ⟨2 ^ 44 - 1, 2 ^ 24 - 1, 0⟩) = (true, ⟨2 ^ 44 - 1, 2 ^ 24 - 1, 0⟩) ∧
      (lt ⟨2 ^ 44 - 1, 2 ^ 24 - 1, 0⟩ ⟨2 ^ 44 - 1, 2 ^ 24 - 1, 1⟩ = true ↔
        serialize ⟨2 ^ 44 - 1, 2 ^ 24 - 1, 0⟩ < serialize ⟨2 ^ 44 - 1, 2 ^ 24 - 1, 1⟩) :=
  text_embeds (by decide) (by decide) reset

/-- A hex digit, of either case. -/
def IsHex (c : UInt8) : Prop := (hexDigit c).isSome = true

instance : DecidablePred IsHex := fun _ => inferInstanceAs (Decidable (_ = true))

theorem isHex_of_mem_takeWhile {c : UInt8} {l : List UInt8}
    (h : c ∈ l.takeWhile fun c => (hexDigit c).isSome) : IsHex c :=
  List.mem_takeWhile_imp (p := fun c => (hexDigit c).isSome) h

/-- **A part is read** where there is a digit. -/
theorem fromChars_isSome_iff {k : Nat} (hk : 0 < k) (l : List UInt8) :
    (fromChars k l).isSome = true ↔ ∃ c ∈ l.head?, IsHex c := by
  obtain ⟨k, rfl⟩ := Nat.exists_eq_add_one.mpr hk
  cases l with
  | nil => simp [fromChars]
  | cons c l =>
    simp only [fromChars, List.take_succ_cons, List.takeWhile_cons, List.head?_cons,
      Option.mem_def, Option.some.injEq, exists_eq_left', IsHex]
    cases (hexDigit c).isSome <;> rfl

/-- A part behind which a digit stands has all its digits. -/
theorem fromChars_full {k n : Nat} {l rest : List UInt8} (hk : k ≤ l.length)
    (h : fromChars k l = some (n, rest)) (hrest : ∃ c ∈ rest.head?, IsHex c) :
    (∀ c ∈ l.take k, IsHex c) ∧ rest = l.drop k := by
  obtain ⟨ds, hds⟩ : ∃ ds, ds = (l.take k).takeWhile fun c => (hexDigit c).isSome := ⟨_, rfl⟩
  have hsplit := List.takeWhile_append_dropWhile (p := fun c => (hexDigit c).isSome) (l := l.take k)
  have hrest' : rest = l.drop ds.length := by
    rw [fromChars, ← hds] at h
    cases ds with
    | nil => cases h
    | cons d ds => cases h; rfl
  rw [← hds] at hsplit
  cases hleft : (l.take k).dropWhile fun c => (hexDigit c).isSome with
  | nil =>
    rw [hleft, List.append_nil] at hsplit
    have hlen : ds.length = k := by rw [hsplit, List.length_take, Nat.min_eq_left hk]
    rw [hrest', hlen]
    refine ⟨fun c hc => ?_, rfl⟩
    rw [← hsplit, hds] at hc
    exact isHex_of_mem_takeWhile hc
  | cons d left =>
    rw [hleft] at hsplit
    -- the symbol behind the digits is none
    have hd : ¬ IsHex d := by
      have := List.head_dropWhile_not (fun c => (hexDigit c).isSome) (l := l.take k)
        (by rw [hleft]; exact List.cons_ne_nil d left)
      simpa [hleft, IsHex] using this
    have hl : l = ds ++ d :: (left ++ l.drop k) := by
      rw [← List.cons_append, ← List.append_assoc, hsplit, List.take_append_drop]
    rw [hrest', hl, List.drop_left' rfl, List.head?_cons] at hrest
    obtain ⟨c, hc, hhex⟩ := hrest
    cases hc
    exact absurd hhex hd

theorem head?_drop_isHex {l : List UInt8} {i : Nat} (hi : i < l.length) :
    (∃ c ∈ (l.drop i).head?, IsHex c) ↔ IsHex l[i] := by
  rw [List.head?_drop, List.getElem?_eq_getElem hi]
  simp

/-- A part whose symbols are all digits is read to its end. -/
theorem fromChars_of_all {k : Nat} {l : List UInt8} (hk : 0 < k) (hl : k ≤ l.length)
    (h : ∀ c ∈ l.take k, IsHex c) : ∃ n, fromChars k l = some (n, l.drop k) := by
  have hall : (l.take k).takeWhile (fun c => (hexDigit c).isSome) = l.take k :=
    List.takeWhile_eq_self_iff.mpr h
  have hlen : (l.take k).length = k := by rw [List.length_take, Nat.min_eq_left hl]
  rw [fromChars, hall]
  cases hds : l.take k with
  | nil =>
    rw [hds] at hlen
    exact absurd hlen hk.ne
  | cons d ds =>
    rw [hds] at hlen
    rw [← hlen]
    exact ⟨_, rfl⟩

/-- The symbols that `parse` makes sure of: both first parts, and a digit of the last one. -/
def checkedLength : Nat := 11 + 6 + 1

/-- **What `parse` accepts.** -/
theorem parse_isSome_iff (buf : List UInt8) : (parse buf).isSome = true ↔
    buf.length = length ∧ ∀ c ∈ buf.take checkedLength, IsHex c := by
  by_cases hlen : buf.length = length
  · have hbuf : buf.length = 25 := hlen
    rw [parse, if_neg (not_not.mpr hlen)]
    constructor
    · intro h
      obtain ⟨x, h⟩ := Option.isSome_iff_exists.mp h
      obtain ⟨⟨t, p₁⟩, h₁, h⟩ := Option.bind_eq_some_iff.mp h
      obtain ⟨⟨s, p₂⟩, h₂, h⟩ := Option.bind_eq_some_iff.mp h
      obtain ⟨⟨r, p₃⟩, h₃, -⟩ := Option.bind_eq_some_iff.mp h
      have hseq := (fromChars_isSome_iff (by norm_num) p₁).mp (Option.isSome_of_mem h₂)
      obtain ⟨htime, rfl⟩ := fromChars_full (by omega) h₁ hseq
      have hrand := (fromChars_isSome_iff (by norm_num) p₂).mp (Option.isSome_of_mem h₃)
      obtain ⟨hpart, rfl⟩ := fromChars_full (by rw [List.length_drop]; omega) h₂ hrand
      rw [List.drop_drop, head?_drop_isHex (by omega)] at hrand
      refine ⟨hlen, fun c hc => ?_⟩
      rw [checkedLength, List.take_succ_eq_append_getElem (by omega), List.take_add] at hc
      rcases List.mem_append.mp hc with hc | hc
      · rcases List.mem_append.mp hc with hc | hc
        · exact htime c hc
        · exact hpart c hc
      · rw [List.mem_singleton.mp hc]
        exact hrand
    · rintro ⟨-, h⟩
      have hsplit : buf.take checkedLength = buf.take 11 ++ ((buf.drop 11).take 6 ++ [buf[17]]) := by
        rw [checkedLength, List.take_succ_eq_append_getElem (by omega), List.take_add,
          List.append_assoc]
      rw [hsplit] at h
      obtain ⟨t, h₁⟩ := fromChars_of_all (k := 11) (l := buf) (by norm_num) (by omega)
        fun c hc => h c (List.mem_append_left _ hc)
      obtain ⟨s, h₂⟩ := fromChars_of_all (k := 6) (l := buf.drop 11) (by norm_num)
        (by rw [List.length_drop]; omega)
        fun c hc => h c (List.mem_append_right _ (List.mem_append_left _ hc))
      have h₃ : (fromChars 8 (buf.drop 17)).isSome = true := by
        rw [fromChars_isSome_iff (by norm_num), head?_drop_isHex (by omega)]
        exact h _ (by simp)
      obtain ⟨⟨r, rest⟩, h₃⟩ := Option.isSome_iff_exists.mp h₃
      rw [List.drop_drop] at h₂
      simp only [Option.bind_eq_bind, h₁, Option.bind_some, h₂, h₃, Option.isSome_some]
  · rw [parse, if_pos hlen]
    exact iff_of_false Bool.false_ne_true fun h => hlen h.1

/-- A text of an object id: as many hex digits as `serialize` writes. -/
def IsText (s : List UInt8) : Prop := s.length = length ∧ ∀ c ∈ s, IsHex c

theorem isHex_of_mem_fmtHex {w n : Nat} {c : UInt8} (h : c ∈ fmtHex w n) : IsHex c := by
  obtain ⟨d, hd, rfl⟩ := List.mem_map.mp h
  rw [IsHex, hexDigit_digitChar (padded_lt_base (by norm_num) w n d hd), Option.isSome_some]

/-- **What is written is a text**, whether or not the parts of the id fit. -/
theorem isText_serialize (a : ObjectId) : IsText a.serialize := by
  refine ⟨serialize_length a, fun c hc => ?_⟩
  rcases List.mem_append.mp (List.mem_of_mem_take hc) with hc | hc
  · rcases List.mem_append.mp hc with hc | hc
    · exact isHex_of_mem_fmtHex hc
    · exact isHex_of_mem_fmtHex hc
  · exact isHex_of_mem_fmtHex hc

/-- `parse` accepts a text and nothing else; an id that is not accepted is reset. -/
def ParsesText (id : ObjectId) (s : List UInt8) : Prop :=
  ((id.parseInto s).1 = true ↔ IsText s) ∧ ((id.parseInto s).1 = false → (id.parseInto s).2 = reset)

theorem parseInto_fst (id : ObjectId) (s : List UInt8) :
    (id.parseInto s).1 = (parse s).isSome := by
  rw [parseInto_eq]
  cases parse s <;> rfl

theorem parseInto_snd {id : ObjectId} {s : List UInt8} (h : (id.parseInto s).1 = false) :
    (id.parseInto s).2 = reset := by
  rw [parseInto_eq] at h ⊢
  cases hs : parse s with
  | none => rfl
  | some x =>
    rw [hs] at h
    cases h

/-- The last part begins with a digit, and something in it is no digit. -/
def EndsEarly (s : List UInt8) : Prop :=
  s.length = length ∧ (∀ c ∈ s.take checkedLength, IsHex c) ∧
    ∃ c ∈ s.drop checkedLength, ¬ IsHex c

instance : DecidablePred IsText := fun _ => inferInstanceAs (Decidable (_ ∧ _))

/-- **The strings that are told apart rightly**: all whose last part does not end early. -/
theorem parsesText_iff (id : ObjectId) (s : List UInt8) :
    ParsesText id s ↔ ¬ EndsEarly s := by
  have hsplit : (∀ c ∈ s, IsHex c) ↔
      (∀ c ∈ s.take checkedLength, IsHex c) ∧ ∀ c ∈ s.drop checkedLength, IsHex c := by
    conv_lhs => rw [← List.take_append_drop checkedLength s]
    exact List.forall_mem_append
  rw [ParsesText, parseInto_fst, parse_isSome_iff, IsText, EndsEarly, hsplit]
  constructor
  · rintro ⟨hiff, -⟩ ⟨hlen, hchecked, c, hc, hhex⟩
    exact hhex ((hiff.mp ⟨hlen, hchecked⟩).2.2 c hc)
  · intro h
    refine ⟨⟨fun ⟨hlen, hchecked⟩ => ⟨hlen, hchecked, fun c hc => ?_⟩,
      fun ⟨hlen, hchecked, _⟩ => ⟨hlen, hchecked⟩⟩, fun hfalse => ?_⟩
    · by_contra hhex
      exact h ⟨hlen, hchecked, c, hc, hhex⟩
    · exact parseInto_snd (by rw [parseInto_fst]; exact hfalse)

/-- The zero id with a letter for the last digit. -/
def sampleText : List UInt8 := List.replicate 24 48 ++ [122]

/-- **A text with a wrong last digit** is accepted. -/
theorem not_parsesText : ¬ ParsesText reset sampleText := by
  intro h
  have haccepted : (reset.parseInto sampleText).1 = true := by decide +kernel
  have htext : ¬ IsText sampleText := by decide +kernel
  exact htext (h.1.mp haccepted)

end ObjectId

end Hatn.Dataunit
