import Hatn.Wire.Windows
import Hatn.Dataunit.Slices

/-!
# Readers on a window of their buffer

The readers of the wire format test what they need against the whole buffer.  Each of them is
compared here with the same reader on a buffer that is cut at some offset: what it reads in front
of this offset it reads in the cut buffer, too, and what is accepted in both buffers is the same
and lies in front of the offset.
-/

namespace Hatn.Dataunit

open Hatn.Common Hatn.Wire Hatn.Wire.Parser

/-! ### Numbers -/

/-- The bytes of a number that are not cut make the same number. -/
theorem unpackLoop_cut (modulus maxShift : Nat) (a a' : Int) (rest : List UInt8) :
    ∀ (l : List UInt8) (s : VarInt),
      (unpackLoop modulus maxShift a (l ++ rest) s).broken = false →
      (unpackLoop modulus maxShift a' l s).broken = false ∨
        ((unpackLoop modulus maxShift a (l ++ rest) s).processedSize ≤ s.processedSize + l.length ∧
          ((unpackLoop modulus maxShift a (l ++ rest) s).processedSize : Int) ≤ a') →
      unpackLoop modulus maxShift a' l s = unpackLoop modulus maxShift a (l ++ rest) s := by
  intro l
  induction l with
  | nil =>
    intro s hb h
    rw [VarInt.broken, Bool.or_eq_false_iff] at hb
    have hpos := unpackLoop_pos hb.1
    rcases h with h | ⟨h, -⟩
    · simp [unpackLoop, VarInt.broken] at h
    · simp only [List.length_nil] at h
      omega
  | cons b l ih =>
    intro s hb h
    have hpos : s.processedSize <
        (unpackLoop modulus maxShift a (b :: l ++ rest) s).processedSize := by
      rw [VarInt.broken, Bool.or_eq_false_iff] at hb
      exact unpackLoop_pos hb.1
    have ha : ¬ a ≤ (s.processedSize : Int) := by
      intro ha
      rw [List.cons_append, unpackLoop, if_pos ha] at hb
      simp [VarInt.broken] at hb
    have ha' : ¬ a' ≤ (s.processedSize : Int) := by
      rcases h with h | ⟨-, h⟩
      · intro ha'
        rw [unpackLoop, if_pos ha'] at h
        simp [VarInt.broken] at h
      · omega
    have hfull : unpackLoop modulus maxShift a (b :: l ++ rest) s =
        if !(s.addByte modulus b).moreBytesLeft then s.addByte modulus b
        else if maxShift < s.shift then s.addByte modulus b
        else unpackLoop modulus maxShift a (l ++ rest) (s.addByte modulus b).next := by
      rw [List.cons_append, unpackLoop, if_neg ha]
    have hcut : unpackLoop modulus maxShift a' (b :: l) s =
        if !(s.addByte modulus b).moreBytesLeft then s.addByte modulus b
        else if maxShift < s.shift then s.addByte modulus b
        else unpackLoop modulus maxShift a' l (s.addByte modulus b).next := by
      rw [unpackLoop, if_neg ha']
    rw [hfull] at hb h ⊢
    rw [hcut] at h ⊢
    split_ifs at hb h ⊢
    · rfl
    · rfl
    · refine ih _ hb (h.imp_right fun hread => ⟨?_, hread.2⟩)
      have h1 := hread.1
      rw [List.length_cons] at h1
      rw [next_processedSize, addByte_processedSize]
      omega

section
variable {buf : List UInt8} {m : Nat}

/-- The window of `buf` in front of the offset `m`. -/
def window (buf : List UInt8) {m : Nat} (hm : m ≤ buf.length) : Window Event where
  size := buf.length
  stop := m
  stop_le := hm
  inside := Event.InBounds m
  seen := m < 2 ^ 31

theorem length_take (hm : m ≤ buf.length) : (buf.take m).length = m := by
  rw [List.length_take, Nat.min_eq_left hm]

theorem addressable_take (hb : Addressable buf) : Addressable (buf.take m) :=
  lt_of_le_of_lt (List.length_take_le' m buf) hb

theorem readVarInt_ok_iff {unpack : List UInt8 → Int → VarInt} (hu : Unpacks unpack)
    (hb : Addressable buf) {o o' : Nat} {v : VarInt} (ho : o ≤ buf.length) :
    (readVarInt unpack buf).outcome o = .ok (v, o') ↔
      unpack (buf.drop o) ((buf.length : Int) - o) = v ∧ v.broken = false ∧
        o' = o + v.processedSize := by
  have hlt := hu.lt (buf.drop o) ((buf.length : Int) - o)
  rw [readVarInt, outcome_bind_ok (outcome_offset o)]
  dsimp only
  rw [outcome_bind_ok (outcome_log _ o)]
  cases hbr : (unpack (buf.drop o) ((buf.length : Int) - o)).broken with
  | true =>
    rw [if_pos rfl]
    constructor
    · exact fun h => nomatch h
    · rintro ⟨rfl, h, -⟩
      rw [hbr] at h
      cases h
  | false =>
    rw [if_neg (by simp), incCurrentOffset, outcome_bind_ok (outcome_seek _ o), outcome_pure,
      step_forward (lt_of_le_of_lt ho hb) hlt, Except.ok.injEq, Prod.mk.injEq]
    constructor
    · rintro ⟨rfl, rfl⟩
      exact ⟨rfl, hbr, rfl⟩
    · rintro ⟨rfl, -, rfl⟩
      exact ⟨rfl, rfl⟩

/-- The runs of the readers of numbers that end well. -/
theorem ReadsSome.ok {α : Type} {p : Reader α} {o o' : Nat} {a : α} (hp : ReadsSome buf o (p o))
    (h : p.outcome o = .ok (a, o')) :
    o < o' ∧ o' ≤ buf.length ∧ p.trace o = [.slice o (o' - o)] := by
  unfold outcome at h
  unfold trace
  generalize p o = r at hp h
  cases hp with
  | nothing => cases h
  | failed => cases h
  | @read k b hpos hk =>
    cases h
    refine ⟨by omega, hk, ?_⟩
    rw [Nat.add_sub_cancel_left]

/-- Readers of bytes that read the same when all of these bytes are in the window. -/
theorem narrows_of_readsSome {α : Type} {p q : Reader α} (hm : m ≤ buf.length)
    (hp : ∀ o ≤ buf.length, ReadsSome buf o (p o))
    (hq : ∀ {o o' a}, m < 2 ^ 31 → o ≤ m → o' ≤ m → p.outcome o = .ok (a, o') →
      q.outcome o = .ok (a, o'))
    (hb : ∀ {o r r'}, o ≤ m → p.outcome o = .ok r → q.outcome o = .ok r' → r' = r ∧ r.2 ≤ m) :
    (window buf hm).Narrows p q where
  within ho h := ((hp _ ho).ok h).2.1
  forth hs ho h _ ho' := hq hs ho ho' h
  back {o a o' r} ho h h' := by
    obtain ⟨rfl, ho'⟩ := hb ho h h'
    obtain ⟨hlt, -, htrace⟩ := (hp o (le_trans ho hm)).ok h
    refine ⟨rfl, ho', fun s hs => ?_⟩
    rw [htrace, List.mem_singleton] at hs
    subst hs
    replace ho' : o' ≤ m := ho'
    show o + (o' - o) ≤ m
    omega
  out ho hlt h _ := lt_trans hlt ((hp _ ho).ok h).1

/-- Bytes behind `o` in the cut buffer. -/
theorem drop_take_append (hm : m ≤ buf.length) (o : Nat) :
    buf.drop o = (buf.take m).drop o ++ (buf.drop m).drop (o - m) := by
  conv_lhs => rw [← List.take_append_drop m buf]
  rw [List.drop_append, length_take hm]

theorem readVarInt_narrows (modulus maxShift : Nat) (hb : Addressable buf) (hm : m ≤ buf.length) :
    (window buf hm).Narrows
      (readVarInt (fun l a => unpackLoop modulus maxShift (toInt a) l .start) buf)
      (readVarInt (fun l a => unpackLoop modulus maxShift (toInt a) l .start) (buf.take m)) := by
  have hu := unpacks_loop modulus maxShift
  have hlen := length_take hm
  refine narrows_of_readsSome hm (fun o ho => readVarInt_run hu hb ho) ?_ ?_
  · intro o o' v hs ho ho' h
    obtain ⟨hv, hbr, rfl⟩ := (readVarInt_ok_iff hu hb (le_trans ho hm)).mp h
    have hint : toInt ((m : Int) - o) = m - o := toInt_of_lt (by omega) (by omega)
    refine (readVarInt_ok_iff hu (addressable_take hb) (by rwa [hlen])).mpr ⟨?_, hbr, rfl⟩
    rw [drop_take_append hm o] at hv
    rw [← hv] at hbr ho'
    rw [unpackLoop_cut _ _ _ _ _ _ _ hbr (.inr ⟨?_, ?_⟩), hv]
    · rw [List.length_drop, hlen]
      show _ ≤ 0 + (m - o)
      omega
    · rw [hlen, hint]
      omega
  · intro o r r' ho h h'
    obtain ⟨hv, hbr, hend⟩ := (readVarInt_ok_iff hu hb (le_trans ho hm)).mp h
    obtain ⟨hv', hbr', hend'⟩ := (readVarInt_ok_iff hu (addressable_take hb)
      (by rwa [hlen])).mp h'
    have hle := hu.le_length ((buf.take m).drop o) (((buf.take m).length : Int) - o)
    rw [drop_take_append hm o] at hv
    rw [← hv] at hbr
    rw [← hv'] at hbr'
    have heq := unpackLoop_cut _ _ _ _ _ _ _ hbr (.inl hbr')
    rw [hv, hv'] at heq
    rw [hv', List.length_drop, hlen, heq] at hle
    rw [heq, ← hend] at hend'
    exact ⟨Prod.ext heq hend', by omega⟩

theorem readUint32_narrows (hb : Addressable buf) (hm : m ≤ buf.length) :
    (window buf hm).Narrows (readUint32 buf) (readUint32 (buf.take m)) :=
  (readVarInt_narrows _ _ hb hm).map fun v => v.value % 2 ^ 32

theorem readVariable_narrows (signed : Bool) (w : Width) (hb : Addressable buf)
    (hm : m ≤ buf.length) :
    (window buf hm).Narrows (readVariable signed w buf) (readVariable signed w (buf.take m)) :=
  (readVarInt_narrows _ _ hb hm).map fun v => castTo signed w v.value

theorem readZigZag_narrows (w : Width) (hb : Addressable buf) (hm : m ≤ buf.length) :
    (window buf hm).Narrows (readZigZag w buf) (readZigZag w (buf.take m)) := by
  unfold readZigZag
  split
  · exact (readVarInt_narrows _ _ hb hm).map _
  · exact (readVarInt_narrows _ _ hb hm).map _

theorem readFixed_ok_iff (signed : Bool) (w : Width) (hb : Addressable buf) {o o' : Nat} {n : Int}
    (ho : o ≤ buf.length) :
    (readFixed signed w buf).outcome o = .ok (n, o') ↔
      o + w.bits / 8 ≤ buf.length ∧
        castTo signed w (leNumber ((buf.drop o).take (w.bits / 8))) = n ∧ o' = o + w.bits / 8 := by
  have hw : w.bits / 8 < 2 ^ 31 := by cases w <;> decide
  rw [readFixed, outcome_bind_ok (outcome_offset o), incCurrentOffset,
    outcome_bind_ok (outcome_seek _ o), step_forward (lt_of_le_of_lt ho hb) hw,
    outcome_bind_ok (outcome_offset _)]
  by_cases hfit : buf.length < o + w.bits / 8
  · rw [if_pos hfit]
    constructor
    · exact fun h => nomatch h
    · exact fun h => absurd h.1 (not_le.mpr hfit)
  · rw [if_neg hfit, outcome_bind_ok (outcome_log _ _), outcome_pure, Except.ok.injEq,
      Prod.mk.injEq]
    constructor
    · rintro ⟨rfl, rfl⟩
      exact ⟨not_lt.mp hfit, rfl, rfl⟩
    · rintro ⟨-, rfl, rfl⟩
      exact ⟨rfl, rfl⟩

/-- Bytes in front of the end of the window. -/
theorem take_drop_take {k o : Nat} (h : o + k ≤ m) :
    ((buf.take m).drop o).take k = (buf.drop o).take k := by
  rw [List.drop_take, List.take_take, Nat.min_eq_left (by omega)]

theorem readFixed_narrows (signed : Bool) (w : Width) (hb : Addressable buf)
    (hm : m ≤ buf.length) :
    (window buf hm).Narrows (readFixed signed w buf) (readFixed signed w (buf.take m)) := by
  have hlen := length_take hm
  refine narrows_of_readsSome hm (fun o ho => readFixed_run signed w hb ho) ?_ ?_
  · intro o o' n _ ho ho' h
    obtain ⟨-, hn, rfl⟩ := (readFixed_ok_iff signed w hb (le_trans ho hm)).mp h
    refine (readFixed_ok_iff signed w (addressable_take hb) (by rwa [hlen])).mpr
      ⟨by rwa [hlen], ?_, rfl⟩
    rw [take_drop_take ho', hn]
  · intro o r r' ho h h'
    obtain ⟨-, hn, hend⟩ := (readFixed_ok_iff signed w hb (le_trans ho hm)).mp h
    obtain ⟨hfit, hn', hend'⟩ := (readFixed_ok_iff signed w (addressable_take hb)
      (by rwa [hlen])).mp h'
    rw [hlen] at hfit
    rw [take_drop_take hfit, hn] at hn'
    rw [← hend] at hend'
    exact ⟨Prod.ext hn'.symm hend', by omega⟩

/-- What is done with a number that was read does not depend on the buffer. -/
theorem Narrows.check {W : Window Event} {α β : Type} {p q : Reader α} (hp : W.Narrows p q)
    {c : α → Bool} {f : α → β} (e : Failure) :
    W.Narrows (p >>= fun a => if c a then pure (f a) else fail e)
      (q >>= fun a => if c a then pure (f a) else fail e) := by
  refine hp.bind fun a _ _ _ => ?_
  split
  · exact .pure _
  · exact .fail _ _

/-- **The readers of numbers** on the window. -/
theorem readScalar_narrows {env env' : Env} (he : env'.calendar = env.calendar) (t : ScalarType)
    (hb : Addressable buf) (hm : m ≤ buf.length) :
    (window buf hm).Narrows (readScalar env buf t) (readScalar env' (buf.take m) t) := by
  cases t with
  | varInt signed w => exact readVariable_narrows signed w hb hm
  | zigZag w => exact readZigZag_narrows w hb hm
  | fixed32 signed => exact readFixed_narrows signed _ hb hm
  | fixed64 signed => exact readFixed_narrows signed _ hb hm
  | date => exact Narrows.check (readVariable_narrows _ _ hb hm) _
  | time => exact Narrows.check (readVariable_narrows _ _ hb hm) _
  | dateTime =>
    unfold readScalar
    rw [he]
    exact Narrows.check (readVariable_narrows _ _ hb hm) _
  | dateRange => exact readVariable_narrows _ _ hb hm

/-! ### Byte arrays and object ids -/

theorem Event.InBounds.mono {n k : Nat} (h : n ≤ k) : ∀ {e : Event}, e.InBounds n → e.InBounds k
  | .slice _ _, hs => le_trans hs h
  | .declared _ _ _, _ | .skip _ _ _, _ | .iteration _ _, _ => trivial

theorem takeBytes_ok_iff (view : Bool) (maxSize : Nat) (hb : Addressable buf) {d o o' : Nat}
    {l : List UInt8} (ho : o ≤ buf.length) (hd : d < 2 ^ 31) :
    (takeBytes view maxSize buf d).outcome o = .ok (l, o') ↔
      ¬ (0 < maxSize ∧ maxSize < d) ∧ o + d ≤ buf.length ∧ (buf.drop o).take d = l ∧
        o' = o + d := by
  have hint : toInt (d : Int) = d := toInt_of_lt (by omega) (by omega)
  rw [takeBytes, outcome_bind_ok (outcome_offset o), outcome_bind_ok (outcome_log _ o), hint]
  by_cases hmax : 0 < maxSize ∧ maxSize < d
  · rw [if_pos (by omega)]
    exact ⟨(fun h => nomatch h), fun h => absurd hmax h.1⟩
  rw [if_neg (by omega)]
  by_cases h0 : d = 0
  · subst h0
    rw [if_pos rfl, outcome_pure, Except.ok.injEq, Prod.mk.injEq]
    constructor
    · rintro ⟨rfl, rfl⟩
      exact ⟨hmax, ho, rfl, rfl⟩
    · rintro ⟨-, -, rfl, rfl⟩
      exact ⟨rfl, rfl⟩
  rw [if_neg h0, incCurrentOffset, outcome_bind_ok (outcome_seek _ o),
    step_forward (lt_of_le_of_lt ho hb) hd, outcome_bind_ok (outcome_offset _)]
  by_cases hfit : buf.length < o + d
  · rw [if_pos hfit]
    exact ⟨(fun h => nomatch h), fun h => absurd h.2.1 (not_le.mpr hfit)⟩
  rw [if_neg hfit, loadBytes, outcome_bind_ok (outcome_log _ _), if_pos (by omega), outcome_pure,
    Except.ok.injEq, Prod.mk.injEq, Int.toNat_natCast]
  constructor
  · rintro ⟨rfl, rfl⟩
    exact ⟨hmax, not_lt.mp hfit, rfl, rfl⟩
  · rintro ⟨-, -, rfl, rfl⟩
    exact ⟨rfl, rfl⟩

/-- Bytes are taken from what is behind the offset, or viewed up to where no buffer ends. -/
theorem takeBytes_ok {view : Bool} {maxSize : Nat} (hb : Addressable buf) {d o o' : Nat}
    {l : List UInt8} (ho : o ≤ buf.length) (hd : d < 2 ^ 32)
    (h : (takeBytes view maxSize buf d).outcome o = .ok (l, o')) :
    (d < 2 ^ 31 ∧ o' = o + d ∧ o' ≤ buf.length ∧
        ∀ e ∈ (takeBytes view maxSize buf d).trace o, e.InBounds o') ∨
      (2 ^ 31 ≤ d ∧ view = true ∧ o' ≤ buf.length ∧
        ∃ e ∈ (takeBytes view maxSize buf d).trace o, ¬ e.InBounds buf.length) := by
  have hrun := takeBytes_run view maxSize hb ho hd
  unfold outcome at h
  unfold trace
  generalize takeBytes view maxSize buf d o = r at hrun h
  cases hrun with
  | rejected => cases h
  | thrown => cases h
  | empty h0 =>
    cases h
    exact .inl ⟨by omega, by omega, ho, by simp [Event.InBounds]⟩
  | taken hlt hfit =>
    cases h
    exact .inl ⟨hlt, rfl, hfit, by simp [Event.InBounds]⟩
  | viewed hback hview =>
    cases h
    refine .inr ⟨hback.1, hview, by omega, .slice o (2 ^ 64 - 2 ^ 32 + d), by simp, ?_⟩
    have hb' : buf.length < 2 ^ 63 := hb
    show ¬ o + (2 ^ 64 - 2 ^ 32 + d) ≤ buf.length
    omega

theorem takeBytes_narrows (view : Bool) (maxSize : Nat) {d : Nat} (hb : Addressable buf)
    (hm : m ≤ buf.length) (hd : d < 2 ^ 32) :
    (window buf hm).Narrows (takeBytes view maxSize buf d)
      (takeBytes false maxSize (buf.take m) d) := by
  have hlen := length_take hm
  -- nothing that keeps to the window is viewed beyond the end of the buffer
  have htaken : ∀ {o o' l}, o ≤ buf.length →
      (takeBytes view maxSize buf d).outcome o = .ok (l, o') →
      (window buf hm).Keeps (takeBytes view maxSize buf d) o → d < 2 ^ 31 ∧ o' = o + d := by
    intro o o' l ho h hk
    rcases takeBytes_ok hb ho hd h with ⟨hlt, hend, -⟩ | ⟨-, -, -, e, he, hover⟩
    · exact ⟨hlt, hend⟩
    · exact absurd ((hk e he).mono hm) hover
  refine ⟨⟨?_, ?_, ?_⟩, ?_⟩
  · intro o o' l ho h
    rcases takeBytes_ok hb ho hd h with ⟨-, -, hfit, -⟩ | ⟨-, -, hfit, -⟩
    · exact hfit
    · exact hfit
  · intro o l o' _ ho h hk ho'
    replace ho : o ≤ m := ho
    replace ho' : o' ≤ m := ho'
    obtain ⟨hlt, rfl⟩ := htaken (le_trans ho hm) h hk
    obtain ⟨hmax, -, hl, -⟩ := (takeBytes_ok_iff view maxSize hb (le_trans ho hm) hlt).mp h
    refine (takeBytes_ok_iff false maxSize (addressable_take hb) (by rwa [hlen]) hlt).mpr
      ⟨hmax, by rwa [hlen], ?_, rfl⟩
    rw [take_drop_take ho', hl]
  · intro o l o' r ho h h'
    replace ho : o ≤ m := ho
    rcases takeBytes_ok (addressable_take hb) (by rwa [hlen]) hd h' with
      ⟨hlt, hend', hfit, -⟩ | ⟨-, hview, -⟩
    · obtain ⟨-, -, hl', -⟩ := (takeBytes_ok_iff false maxSize (addressable_take hb)
        (by rwa [hlen]) hlt).mp h'
      obtain ⟨-, -, hl, hend⟩ := (takeBytes_ok_iff view maxSize hb (le_trans ho hm) hlt).mp h
      rw [hlen, hend', ← hend] at hfit
      rw [take_drop_take (by rwa [← hend]), hl] at hl'
      rw [← hend] at hend'
      refine ⟨Prod.ext hl'.symm hend', hfit, fun e he => ?_⟩
      rcases takeBytes_ok hb (le_trans ho hm) hd h with ⟨-, -, -, hin⟩ | ⟨hge, -⟩
      · exact (hin e he).mono hfit
      · omega
    · cases hview
  · intro o l o' ho hlt h hk
    obtain ⟨-, rfl⟩ := htaken ho h hk
    exact lt_of_lt_of_le hlt (Nat.le_add_right _ _)

theorem takeObjectId_ok_iff (hb : Addressable buf) {d o o' : Nat} {x : ObjectId}
    (ho : o ≤ buf.length) :
    (takeObjectId buf d).outcome o = .ok (x, o') ↔
      d = ObjectId.length ∧ o + d ≤ buf.length ∧
        ObjectId.parse ((buf.drop o).take d) = some x ∧ o' = o + d := by
  rw [takeObjectId, outcome_bind_ok (outcome_offset o), outcome_bind_ok (outcome_log _ o)]
  by_cases hd : d = ObjectId.length
  · have hd25 : d = 25 := hd
    have hint : toInt (d : Int) = 25 := by
      rw [hd25]
      rfl
    have hlength : ((ObjectId.length : Nat) : Int) = 25 := rfl
    rw [hint, hlength, if_neg (by omega), if_neg (by omega), incCurrentOffset,
      outcome_bind_ok (outcome_seek _ o), step_forward (lt_of_le_of_lt ho hb) (by omega),
      loadObjectId, outcome_bind_ok (outcome_log _ _), if_neg (not_not.mpr hd)]
    by_cases hfit : buf.length < o + d
    · rw [if_pos hfit]
      exact ⟨(fun h => nomatch h), fun h => absurd h.2.1 (not_le.mpr hfit)⟩
    rw [if_neg hfit]
    cases ObjectId.parse ((buf.drop o).take d) with
    | none => exact ⟨(fun h => nomatch h), fun h => nomatch h.2.2.1⟩
    | some y =>
      rw [outcome_pure, Except.ok.injEq, Prod.mk.injEq, Option.some.injEq]
      exact ⟨fun h => ⟨hd, not_lt.mp hfit, h.1, h.2.symm⟩, fun h => ⟨h.2.2.1, h.2.2.2.symm⟩⟩
  · refine ⟨fun h => ?_, fun h => absurd h.1 hd⟩
    split at h
    · cases h
    split at h
    · cases h
    rw [incCurrentOffset, outcome_bind_ok (outcome_seek _ o), loadObjectId,
      outcome_bind_ok (outcome_log _ _), if_pos hd] at h
    cases h

/-- A run as its log and its outcome. -/
theorem run_eq {α : Type} (p : Reader α) (o : Nat) : p o = (p.trace o, p.outcome o) := rfl

theorem TakesObjectId.keeps {d o o' : Nat} {x : ObjectId} {t : List Event}
    (hr : TakesObjectId buf d o (t, .ok (x, o'))) : ∀ e ∈ t, e.InBounds o' := by
  cases hr with
  | parsed _ _ =>
    intro e he
    rw [List.mem_pair] at he
    rcases he with rfl | rfl
    · trivial
    · exact le_rfl

theorem takeObjectId_narrows (d : Nat) (hb : Addressable buf) (hm : m ≤ buf.length) :
    (window buf hm).Narrows (takeObjectId buf d) (takeObjectId (buf.take m) d) := by
  have hlen := length_take hm
  refine ⟨⟨?_, ?_, ?_⟩, ?_⟩
  · intro o x o' ho h
    obtain ⟨-, hfit, -, rfl⟩ := (takeObjectId_ok_iff hb ho).mp h
    exact hfit
  · intro o x o' _ ho h _ ho'
    replace ho : o ≤ m := ho
    replace ho' : o' ≤ m := ho'
    obtain ⟨hd, -, hx, rfl⟩ := (takeObjectId_ok_iff hb (le_trans ho hm)).mp h
    refine (takeObjectId_ok_iff (addressable_take hb) (by rwa [hlen])).mpr
      ⟨hd, by rwa [hlen], ?_, rfl⟩
    rw [take_drop_take ho', hx]
  · intro o x o' r ho h h'
    replace ho : o ≤ m := ho
    obtain ⟨-, -, hx, hend⟩ := (takeObjectId_ok_iff hb (le_trans ho hm)).mp h
    obtain ⟨-, hfit, hx', hend'⟩ := (takeObjectId_ok_iff (addressable_take hb)
      (by rwa [hlen])).mp h'
    rw [hlen] at hfit
    rw [take_drop_take hfit, hx, Option.some.injEq] at hx'
    rw [← hend] at hend' hfit
    have hrun := takeObjectId_run (d := d) hb (le_trans ho hm)
    rw [run_eq (takeObjectId buf d), h] at hrun
    exact ⟨Prod.ext hx'.symm hend', hfit, fun e he => (hrun.keeps e he).mono hfit⟩
  · intro o x o' ho hlt h _
    obtain ⟨-, -, -, rfl⟩ := (takeObjectId_ok_iff hb ho).mp h
    exact lt_of_lt_of_le hlt (Nat.le_add_right _ _)

/-- A reader behind a size. -/
theorem sized_narrows {α : Type} {f g : Nat → Reader α} (hb : Addressable buf)
    (hm : m ≤ buf.length) (hf : ∀ d < 2 ^ 32, (window buf hm).Narrows (f d) (g d)) :
    (window buf hm).Narrows (readUint32 buf >>= f) (readUint32 (buf.take m) >>= g) :=
  (readUint32_narrows hb hm).bind fun d o o' h => hf d (readUint32_lt o d o' h)

theorem readBytes_narrows (view : Bool) (maxSize : Nat) (hb : Addressable buf)
    (hm : m ≤ buf.length) :
    (window buf hm).Narrows (readBytes view maxSize buf) (readBytes false maxSize (buf.take m)) :=
  sized_narrows hb hm fun _ hd => takeBytes_narrows view maxSize hb hm hd

theorem readObjectId_narrows (hb : Addressable buf) (hm : m ≤ buf.length) :
    (window buf hm).Narrows (readObjectId buf) (readObjectId (buf.take m)) :=
  sized_narrows hb hm fun d _ => takeObjectId_narrows d hb hm

/-! ### Unknown fields -/

theorem stepOver_ok_iff {n : Int} {o o' : Nat} :
    (stepOver buf n).outcome o = .ok ((), o') ↔
      o' ≤ buf.length ∧ o' = (((o : Int) + toInt n) % 2 ^ 64).toNat := by
  rw [stepOver, incCurrentOffset, outcome_bind_ok (outcome_seek _ o),
    outcome_bind_ok (outcome_offset _)]
  split
  · rename_i hlt
    refine ⟨(fun h => nomatch h), fun ⟨h1, h2⟩ => ?_⟩
    rw [← h2] at hlt
    exact absurd h1 (not_le.mpr hlt)
  · rename_i hle
    rw [outcome_pure, Except.ok.injEq, Prod.mk.injEq]
    constructor
    · rintro ⟨-, rfl⟩
      exact ⟨not_lt.mp hle, rfl⟩
    · rintro ⟨-, rfl⟩
      exact ⟨rfl, rfl⟩

theorem stepOver_trace {n : Int} {o : Nat} : (stepOver buf n).trace o = [] := by
  rw [stepOver, incCurrentOffset, trace_bind_ok (outcome_seek _ o),
    trace_bind_ok (outcome_offset _)]
  split <;> rfl

theorem stepOver_follows (n : Int) (hm : m ≤ buf.length) :
    (window buf hm).Follows (stepOver buf n) (stepOver (buf.take m) n) where
  within _ h := (stepOver_ok_iff.mp h).1
  forth _ _ h _ ho' := by
    replace ho' : _ ≤ m := ho'
    exact stepOver_ok_iff.mpr ⟨by rwa [length_take hm], (stepOver_ok_iff.mp h).2⟩
  back _ h h' := by
    obtain ⟨-, hend⟩ := stepOver_ok_iff.mp h
    obtain ⟨hfit, hend'⟩ := stepOver_ok_iff.mp h'
    rw [length_take hm, hend', ← hend] at hfit
    refine ⟨Prod.ext rfl (hend'.trans hend.symm), hfit, fun e he => ?_⟩
    rw [stepOver_trace] at he
    cases he

/-- Nothing of a field is read that is stepped over, and a length may lead back. -/
theorem skipBytes_follows (start : Nat) (v : VarInt) (hm : m ≤ buf.length) :
    (window buf hm).Follows (skipBytes start buf v) (skipBytes start (buf.take m) v) := by
  unfold skipBytes
  split
  · exact (Window.Narrows.fail _ _).toFollows
  · exact (stepOver_follows v.value hm).offset_log_bind fun _ => trivial

theorem stepOver_narrows {k : Nat} (hk : k < 2 ^ 31) (hb : Addressable buf)
    (hm : m ≤ buf.length) :
    (window buf hm).Narrows (stepOver buf k) (stepOver (buf.take m) k) where
  toFollows := stepOver_follows k hm
  out {o _ o'} ho hlt h _ := by
    obtain ⟨-, hend⟩ := stepOver_ok_iff.mp h
    rw [step_forward (lt_of_le_of_lt ho hb) hk] at hend
    rw [hend]
    exact lt_of_lt_of_le hlt (Nat.le_add_right _ _)

theorem readVarInt_lands (modulus maxShift : Nat) (hb : Addressable buf) (hm : m ≤ buf.length) :
    (window buf hm).Lands
      (readVarInt (fun l a => unpackLoop modulus maxShift (toInt a) l .start) buf) := by
  intro o v o' ho h hk
  obtain ⟨hlt, -, htrace⟩ := (readVarInt_run (unpacks_loop _ _) hb ho).ok h
  have hin : o + (o' - o) ≤ m := hk (.slice o (o' - o)) (htrace ▸ List.mem_singleton_self _)
  show o' ≤ m
  omega

theorem skipField_narrows (start fieldType : Nat) (hb : Addressable buf) (hm : m ≤ buf.length) :
    (window buf hm).Narrows (skipField start fieldType buf)
      (skipField start fieldType (buf.take m)) := by
  unfold skipField
  split
  · exact (readVarInt_narrows _ _ hb hm).bind_lands (readVarInt_lands _ _ hb hm)
      fun v _ _ _ => skipBytes_follows start v hm
  · split
    · exact (readVarInt_narrows _ _ hb hm).map fun _ => ()
    · split
      · exact stepOver_narrows (by norm_num) hb hm
      · split
        · exact stepOver_narrows (by norm_num) hb hm
        · exact .fail _ _

end

end Hatn.Dataunit
