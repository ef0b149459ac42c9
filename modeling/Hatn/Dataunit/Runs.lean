import Hatn.Dataunit.Deserialize

/-!
# What the readers can do

Each reader is described once by all its runs from an offset within a buffer: what it
logs and how it ends.  The properties of whole parses are derived from these lemmas.
-/

namespace Hatn.Dataunit

open Hatn.Common Hatn.Wire Hatn.Wire.Parser

/-- An object in memory is smaller than half of the address space. -/
def Addressable (buf : List UInt8) : Prop := buf.length < 2 ^ 63

/-- The main container of a solid buffer. -/
structure Container where
  bytes : List UInt8
  addressable : Addressable bytes

theorem run_incCurrentOffset_bind {α : Type} (n : Int) (f : Unit → Reader α) (o : Nat) :
    (incCurrentOffset n >>= f) o = f () (((o : Int) + toInt n) % 2 ^ 64).toNat := rfl

/-- Small steps add up. -/
theorem step_forward {o n : Nat} (ho : o < 2 ^ 63) (hn : n < 2 ^ 31) :
    (((o : Int) + toInt n) % 2 ^ 64).toNat = o + n := by
  rw [toInt_of_lt (by omega) (by omega), Int.emod_eq_of_lt (by omega) (by omega)]
  omega

/-- A step of `2^31` and more goes back. -/
theorem step_back {o n : Nat} (ho : o < 2 ^ 63) (hn : 2 ^ 31 ≤ n) (hn' : n < 2 ^ 32)
    (h : 2 ^ 32 ≤ o + n) : (((o : Int) + toInt n) % 2 ^ 64).toNat = o + n - 2 ^ 32 := by
  rw [toInt_of_ge (by omega) (by omega), Int.emod_eq_of_lt (by omega) (by omega)]
  omega

/-- A step back behind the start leaves the buffer. -/
theorem step_under {o n : Nat} (ho : o < 2 ^ 63) (hn : 2 ^ 31 ≤ n) (hn' : n < 2 ^ 32)
    (h : o + n < 2 ^ 32) : 2 ^ 63 ≤ (((o : Int) + toInt n) % 2 ^ 64).toNat := by
  have e : ((o : Int) + toInt n) % 2 ^ 64 = o + n - 2 ^ 32 + 2 ^ 64 := by
    rw [toInt_of_ge (by omega) (by omega), ← Int.add_emod_right,
      Int.emod_eq_of_lt (by omega) (by omega)]
    omega
  rw [e]
  omega

/-! ### Varints -/

/-- What is common to the functions that unpack varints. -/
structure Unpacks (unpack : List UInt8 → Int → VarInt) : Prop where
  le_length : ∀ l a, (unpack l a).processedSize ≤ l.length
  lt : ∀ l a, (unpack l a).processedSize < 2 ^ 31
  pos : ∀ l a, (unpack l a).broken = false → 0 < (unpack l a).processedSize

theorem unpacks_loop (modulus maxShift : Nat) :
    Unpacks (fun l a => unpackLoop modulus maxShift (toInt a) l .start) where
  le_length l a := by
    have h := (unpackLoop_processed modulus maxShift (toInt a) l .start).2.2
    simpa [VarInt.start] using h
  lt l a := by
    have h := (unpackLoop_processed modulus maxShift (toInt a) l .start).2.1
    have hi := toInt_lt a
    rcases h with h | h
    · rw [h]
      decide
    · omega
  pos l a h := by
    rw [VarInt.broken, Bool.or_eq_false_iff] at h
    exact unpackLoop_pos h.1

theorem unpacks_varInt32 : Unpacks unpackVarInt32 := unpacks_loop _ _

theorem unpacks_varInt64 : Unpacks unpackVarInt64 := unpacks_loop _ _

theorem unpacks_unknown : Unpacks unpackUnknown := unpacks_loop _ _

variable {buf : List UInt8} {o : Nat}

/-- A failure that the source reports by itself. -/
def Failure.Clean (e : Failure) : Prop := e ≠ .outOfBounds ∧ e ≠ .exhausted

theorem clean_rejected : Failure.rejected.Clean := ⟨by decide, by decide⟩

theorem clean_thrown : Failure.thrown.Clean := ⟨by decide, by decide⟩

/-- A run that reads some bytes of the buffer, or fails before or after that. -/
inductive ReadsSome {α : Type} (buf : List UInt8) (o : Nat) :
    List Event × Except Failure (α × Nat) → Prop
  | nothing {e : Failure} : e.Clean → ReadsSome buf o ([], .error e)
  | failed {e : Failure} {k : Nat} : e.Clean → o + k ≤ buf.length →
      ReadsSome buf o ([.slice o k], .error e)
  | read {k : Nat} {a : α} : 0 < k → o + k ≤ buf.length →
      ReadsSome buf o ([.slice o k], .ok (a, o + k))

theorem ReadsSome.bind {α β : Type} {p : Reader α} {f : α → Reader β} (h : ReadsSome buf o (p o))
    (hf : ∀ a, (∃ b, f a = pure b) ∨ ∃ e, e.Clean ∧ f a = fail e) :
    ReadsSome buf o ((p >>= f) o) := by
  generalize hr : p o = r at h
  cases h with
  | nothing he => rw [run_bind_error hr]; exact .nothing he
  | failed he hk => rw [run_bind_error hr]; exact .failed he hk
  | @read k a hpos hk =>
    rw [run_bind_ok hr]
    rcases hf a with ⟨b, hb⟩ | ⟨e, he, hb⟩
    · rw [hb]
      exact .read hpos hk
    · rw [hb]
      exact .failed he hk

theorem readVarInt_run {unpack : List UInt8 → Int → VarInt} (hu : Unpacks unpack)
    (hb : Addressable buf) (ho : o ≤ buf.length) : ReadsSome buf o (readVarInt unpack buf o) := by
  have hl := hu.le_length (buf.drop o) ((buf.length : Int) - o)
  rw [List.length_drop] at hl
  unfold readVarInt
  rw [run_offset_bind, run_log_bind]
  cases hbr : (unpack (buf.drop o) ((buf.length : Int) - o)).broken with
  | true => exact .failed clean_rejected (by omega)
  | false =>
    rw [if_neg (by simp), run_incCurrentOffset_bind,
      step_forward (lt_of_le_of_lt ho hb) (hu.lt _ _)]
    exact .read (hu.pos _ _ hbr) (by omega)

theorem readUint32_run (hb : Addressable buf) (ho : o ≤ buf.length) :
    ReadsSome buf o (readUint32 buf o) :=
  (readVarInt_run unpacks_varInt64 hb ho).bind fun _ => .inl ⟨_, rfl⟩

theorem readUint32_lt : Yields (readUint32 buf) (· < 2 ^ 32) :=
  (Yields.true _).bind fun _ _ => Yields.pure (Nat.mod_lt _ (by decide))

theorem readVariable_run (signed : Bool) (w : Width) (hb : Addressable buf) (ho : o ≤ buf.length) :
    ReadsSome buf o (readVariable signed w buf o) :=
  (readVarInt_run unpacks_varInt64 hb ho).bind fun _ => .inl ⟨_, rfl⟩

theorem readZigZag_run (w : Width) (hb : Addressable buf) (ho : o ≤ buf.length) :
    ReadsSome buf o (readZigZag w buf o) := by
  unfold readZigZag
  split
  · exact (readVarInt_run unpacks_varInt64 hb ho).bind fun _ => .inl ⟨_, rfl⟩
  · exact (readVarInt_run unpacks_varInt32 hb ho).bind fun _ => .inl ⟨_, rfl⟩

theorem readFixed_run (signed : Bool) (w : Width) (hb : Addressable buf) (ho : o ≤ buf.length) :
    ReadsSome buf o (readFixed signed w buf o) := by
  have hw : 0 < w.bits / 8 ∧ w.bits / 8 < 2 ^ 31 := by cases w <;> decide
  unfold readFixed
  rw [run_offset_bind, run_incCurrentOffset_bind, run_offset_bind,
    step_forward (lt_of_le_of_lt ho hb) hw.2]
  by_cases hk : buf.length < o + w.bits / 8
  · rw [if_pos hk]
    exact .nothing clean_rejected
  · rw [if_neg hk]
    exact .read hw.1 (by omega)

/-- **The readers of numbers** read some bytes of the buffer. -/
theorem readScalar_run (env : Env) (t : ScalarType) (hb : Addressable buf) (ho : o ≤ buf.length) :
    ReadsSome buf o (readScalar env buf t o) := by
  have hcheck : ∀ (c : Int → Bool) (e : Failure), e.Clean → ∀ n : Int,
      (∃ m, (if c n then pure n else fail e : Reader Int) = pure m) ∨
        ∃ e', e'.Clean ∧ (if c n then pure n else fail e : Reader Int) = fail e' := by
    intro c e he n
    by_cases hc : c n
    · exact .inl ⟨n, if_pos hc⟩
    · exact .inr ⟨e, he, if_neg hc⟩
  cases t with
  | varInt signed w => exact readVariable_run signed w hb ho
  | zigZag w => exact readZigZag_run w hb ho
  | fixed32 signed => exact readFixed_run signed _ hb ho
  | fixed64 signed => exact readFixed_run signed _ hb ho
  | date => exact (readVariable_run _ _ hb ho).bind (hcheck _ _ clean_rejected)
  | time => exact (readVariable_run _ _ hb ho).bind (hcheck _ _ clean_rejected)
  | dateTime => exact (readVariable_run _ _ hb ho).bind (hcheck _ _ clean_thrown)
  | dateRange => exact readVariable_run _ _ hb ho

/-! ### Byte arrays and object ids -/

/-- A length that moves the offset back but not behind the start of the buffer. -/
def MovesBack (length offset : Nat) : Prop := 2 ^ 31 ≤ length ∧ 2 ^ 32 ≤ offset + length

/-- The runs of `takeBytes`. -/
inductive TakesBytes (view : Bool) (buf : List UInt8) (d o : Nat) :
    List Event × Except Failure (List UInt8 × Nat) → Prop
  | rejected : d ≠ 0 → ¬ MovesBack d o →
      TakesBytes view buf d o ([.declared (.bytes view) d o], .error .rejected)
  | empty : d = 0 → TakesBytes view buf d o ([.declared (.bytes view) d o], .ok ([], o))
  | taken {l : List UInt8} : d < 2 ^ 31 → o + d ≤ buf.length →
      TakesBytes view buf d o ([.declared (.bytes view) d o, .slice o d], .ok (l, o + d))
  | thrown : MovesBack d o → view = false →
      TakesBytes view buf d o
        ([.declared (.bytes view) d o, .slice o (2 ^ 64 - 2 ^ 32 + d)], .error .thrown)
  | viewed {l : List UInt8} : MovesBack d o → view = true →
      TakesBytes view buf d o
        ([.declared (.bytes view) d o, .slice o (2 ^ 64 - 2 ^ 32 + d)], .ok (l, o + d - 2 ^ 32))

theorem takeBytes_run (view : Bool) (maxSize : Nat) {d : Nat} (hb : Addressable buf)
    (ho : o ≤ buf.length) (hd : d < 2 ^ 32) :
    TakesBytes view buf d o (takeBytes view maxSize buf d o) := by
  have ho' : o < 2 ^ 63 := lt_of_le_of_lt ho hb
  unfold takeBytes
  rw [run_offset_bind, run_log_bind]
  by_cases hm : 0 < maxSize ∧ (maxSize : Int) < toInt d
  · have hlt : ¬ 2 ^ 31 ≤ d := by
      intro h
      have e := toInt_of_ge (n := d) (by omega) (by omega)
      omega
    rw [if_pos hm]
    refine .rejected ?_ (fun h => hlt h.1)
    rintro rfl
    have e := toInt_of_lt (n := (0 : Nat)) (by omega) (by omega)
    omega
  rw [if_neg hm]
  by_cases h0 : d = 0
  · rw [if_pos h0]
    exact .empty h0
  rw [if_neg h0, run_incCurrentOffset_bind, run_offset_bind]
  by_cases hlt : d < 2 ^ 31
  · rw [step_forward ho' hlt, toInt_of_lt (by omega) (by omega)]
    by_cases hfit : buf.length < o + d
    · rw [if_pos hfit]
      exact .rejected h0 (fun h => absurd h.1 (by omega))
    · rw [if_neg hfit, loadBytes, run_log_bind, if_pos (by omega),
        Int.emod_eq_of_lt (by omega) (by omega), Int.toNat_natCast]
      exact .taken hlt (by omega)
  · by_cases hback : 2 ^ 32 ≤ o + d
    · have hfit : ¬ buf.length < o + d - 2 ^ 32 := by omega
      have hsize : ((d : Int) - 2 ^ 32) % 2 ^ 64 = d - 2 ^ 32 + 2 ^ 64 := by
        rw [← Int.add_emod_right, Int.emod_eq_of_lt (by omega) (by omega)]
      have hnat : ((d : Int) - 2 ^ 32 + 2 ^ 64).toNat = 2 ^ 64 - 2 ^ 32 + d := by omega
      rw [step_back ho' (by omega) hd hback, if_neg hfit, toInt_of_ge (by omega) (by omega),
        loadBytes, run_log_bind, if_neg (by omega), hsize, hnat]
      cases view with
      | true => exact .viewed ⟨by omega, hback⟩ rfl
      | false => exact .thrown ⟨by omega, hback⟩ rfl
    · have hfar := step_under ho' (by omega) hd (by omega)
      rw [if_pos (by unfold Addressable at hb; omega)]
      exact .rejected h0 (fun h => hback h.2)

/-- The runs of `takeObjectId`. -/
inductive TakesObjectId (buf : List UInt8) (d o : Nat) :
    List Event × Except Failure (ObjectId × Nat) → Prop
  | rejected : d = 0 ∨ (ObjectId.length : Int) < toInt d →
      TakesObjectId buf d o ([.declared .objectId d o], .error .rejected)
  | refused : d ≠ 0 → toInt d ≤ ObjectId.length → d ≠ ObjectId.length ∨ o + d ≤ buf.length →
      TakesObjectId buf d o ([.declared .objectId d o, .slice o d], .error .rejected)
  | overEnd : d = ObjectId.length → buf.length < o + d →
      TakesObjectId buf d o ([.declared .objectId d o, .slice o d], .error .outOfBounds)
  | parsed {x : ObjectId} : d = ObjectId.length → o + d ≤ buf.length →
      TakesObjectId buf d o ([.declared .objectId d o, .slice o d], .ok (x, o + d))

theorem takeObjectId_run {d : Nat} (hb : Addressable buf) (ho : o ≤ buf.length) :
    TakesObjectId buf d o (takeObjectId buf d o) := by
  unfold takeObjectId
  rw [run_offset_bind, run_log_bind]
  by_cases hm : (ObjectId.length : Int) < toInt d
  · rw [if_pos hm]
    exact .rejected (.inr hm)
  rw [if_neg hm]
  by_cases h0 : d = 0
  · rw [if_pos h0]
    exact .rejected (.inl h0)
  rw [if_neg h0, run_incCurrentOffset_bind]
  unfold loadObjectId
  rw [run_log_bind]
  by_cases h25 : d ≠ ObjectId.length
  · rw [if_pos h25]
    exact .refused h0 (not_lt.mp hm) (.inl h25)
  have hd : d = 25 := not_not.mp h25
  rw [if_neg h25, step_forward (lt_of_le_of_lt ho hb) (by omega)]
  by_cases hfit : buf.length < o + d
  · rw [if_pos hfit]
    exact .overEnd hd hfit
  rw [if_neg hfit]
  cases ObjectId.parse ((buf.drop o).take d) with
  | some x => exact .parsed hd (by omega)
  | none => exact .refused h0 (not_lt.mp hm) (.inr (by omega))

/-! ### Unknown fields -/

/-- The runs of `skipField`. -/
inductive Skips (start : Nat) (buf : List UInt8) (o : Nat) :
    List Event × Except Failure (Unit × Nat) → Prop
  | nothing {e : Failure} : e.Clean → Skips start buf o ([], .error e)
  | failed {e : Failure} {k : Nat} : e.Clean → o + k ≤ buf.length →
      Skips start buf o ([.slice o k], .error e)
  | number {k : Nat} : 0 < k → o + k ≤ buf.length → Skips start buf o ([.slice o k], .ok ((), o + k))
  | fixed {k : Nat} : 0 < k → o + k ≤ buf.length → Skips start buf o ([], .ok ((), o + k))
  | rejected {k d : Nat} : o + k ≤ buf.length → ¬ MovesBack d (o + k) →
      Skips start buf o ([.slice o k, .skip start d (o + k)], .error .rejected)
  | forward {k d : Nat} : 0 < k → d < 2 ^ 31 → o + k + d ≤ buf.length →
      Skips start buf o ([.slice o k, .skip start d (o + k)], .ok ((), o + k + d))
  | back {k d : Nat} : o + k ≤ buf.length → d < 2 ^ 32 → MovesBack d (o + k) →
      Skips start buf o ([.slice o k, .skip start d (o + k)], .ok ((), o + k + d - 2 ^ 32))

theorem unpackUnknown_value_lt (l : List UInt8) (a : Int) : (unpackUnknown l a).value < 2 ^ 32 :=
  unpackLoop_value_lt (by decide) _ _ l .start (by decide)

theorem readVarInt_value {unpack : List UInt8 → Int → VarInt} {P : VarInt → Prop}
    (h : ∀ l a, P (unpack l a)) : Yields (readVarInt unpack buf) P := by
  refine (Yields.true _).bind fun o _ => (Yields.true _).bind fun _ _ => ?_
  split
  · exact Yields.fail
  · exact (Yields.true _).bind fun _ _ => Yields.pure (h _ _)

theorem stepOver_fixed (start k : Nat) (hk : 0 < k) (hk' : k < 2 ^ 31) (hb : Addressable buf)
    (ho : o ≤ buf.length) : Skips start buf o (stepOver buf k o) := by
  unfold stepOver
  rw [run_incCurrentOffset_bind, run_offset_bind, step_forward (lt_of_le_of_lt ho hb) hk']
  by_cases hfit : buf.length < o + k
  · rw [if_pos hfit]
    exact .nothing clean_rejected
  · rw [if_neg hfit]
    exact .fixed hk (by omega)

theorem skipField_run (start fieldType : Nat) (hb : Addressable buf) (ho : o ≤ buf.length) :
    Skips start buf o (skipField start fieldType buf o) := by
  have hv : ReadsSome buf o (readVarInt unpackUnknown buf o) :=
    readVarInt_run unpacks_unknown hb ho
  have hlt : ∀ v o', (readVarInt unpackUnknown buf).outcome o = .ok (v, o') → v.value < 2 ^ 32 :=
    readVarInt_value unpackUnknown_value_lt o
  unfold skipField outcome at *
  generalize hr : readVarInt unpackUnknown buf o = r at hv hlt
  split
  · cases hv with
    | nothing he => rw [run_bind_error hr]; exact .nothing he
    | failed he hk => rw [run_bind_error hr]; exact .failed he hk
    | @read k v hpos hk =>
      have hd := hlt v (o + k) rfl
      have ho' : o + k < 2 ^ 63 := lt_of_le_of_lt hk hb
      rw [run_bind_ok hr]
      unfold skipBytes stepOver
      by_cases hs : 28 < v.shift
      · rw [if_pos hs]
        exact .failed clean_rejected hk
      rw [if_neg hs, run_offset_bind, run_log_bind, run_incCurrentOffset_bind, run_offset_bind]
      by_cases h31 : v.value < 2 ^ 31
      · rw [step_forward ho' h31]
        by_cases hfit : buf.length < o + k + v.value
        · rw [if_pos hfit]
          exact .rejected hk (fun h => absurd h.1 (by omega))
        · rw [if_neg hfit]
          exact .forward hpos h31 (by omega)
      · by_cases hback : 2 ^ 32 ≤ o + k + v.value
        · rw [step_back ho' (by omega) hd hback, if_neg (by omega)]
          exact .back hk hd ⟨by omega, hback⟩
        · have hfar := step_under ho' (by omega) hd (by omega)
          rw [if_pos (by unfold Addressable at hb; omega)]
          exact .rejected hk (fun h => hback h.2)
  · split
    · cases hv with
      | nothing he => rw [run_bind_error hr]; exact .nothing he
      | failed he hk => rw [run_bind_error hr]; exact .failed he hk
      | read hpos hk => rw [run_bind_ok hr]; exact .number hpos hk
    · split
      · exact stepOver_fixed start 4 (by omega) (by omega) hb ho
      · split
        · exact stepOver_fixed start 8 (by omega) (by omega) hb ho
        · exact .nothing clean_rejected

/-! ### Whole parses -/

/-- What makes a property of runs one of all parsers of fields: it says nothing outside
of the buffer, the readers have it, and so have the loops. -/
structure ReaderRules (Φ : RunProperty Event Failure) (env : Env) (buf : List UInt8) (fuel : Nat) :
    Prop where
  outside : ∀ {o : Nat} {t : List Event} {r : Except Failure Nat}, buf.length < o → Φ.holds t o r
  rejects : ∀ o, Φ.holds [] o (.error .rejected)
  numbers : ∀ {α : Type} {o : Nat} {r : List Event × Except Failure (α × Nat)},
    o ≤ buf.length → ReadsSome buf o r → Φ.holds r.1 o (r.2.map Prod.snd)
  bytes : ∀ {view : Bool} {d o : Nat} {r : List Event × Except Failure (List UInt8 × Nat)},
    (view = true → env.inlineBuffers = true) → o ≤ buf.length → d < 2 ^ 32 →
      TakesBytes view buf d o r → Φ.holds r.1 o (r.2.map Prod.snd)
  objectId : ∀ {d o : Nat} {r : List Event × Except Failure (ObjectId × Nat)},
    o ≤ buf.length → d < 2 ^ 32 → TakesObjectId buf d o r → Φ.holds r.1 o (r.2.map Prod.snd)
  refuses : ∀ {k : LengthKind} {d o : Nat}, k = .unit ∨ k = .packed → o ≤ buf.length →
    Φ.holds [.declared k d o] o (.error .rejected)
  enters : ∀ {k : LengthKind} {d o : Nat}, k = .unit ∨ k = .packed → o + d ≤ buf.length →
    Φ.holds [.declared k d o] o (.ok o)
  scalars : ∀ {element : Reader Int}, (∀ o ≤ buf.length, ReadsSome buf o (element o)) →
    ∀ stop l, stop ≤ buf.length → Φ.Sat (untilOffset .exhausted stop (packedRound element) fuel l)
  fields : ∀ {α : Type} {find : Nat → Option (UnitFieldParser α)},
    (∀ id p, find id = some p → ∀ x, Φ.Sat (p.fn x)) →
    ∀ stop x, stop ≤ buf.length → Φ.Sat (untilOffset .exhausted stop (fieldRound find buf) fuel x)

namespace ReaderRules

variable {Φ : RunProperty Event Failure} {env : Env} {fuel : Nat}

/-- It is enough to look at offsets within the buffer. -/
theorem sat_of_le (h : ReaderRules Φ env buf fuel) {α : Type} {p : Reader α}
    (hp : ∀ o ≤ buf.length, Φ.SatAt p o) : Φ.Sat p := by
  intro o
  by_cases ho : o ≤ buf.length
  · exact hp o ho
  · exact h.outside (not_le.mp ho)

theorem sat_number (h : ReaderRules Φ env buf fuel) {α : Type} {p : Reader α}
    (hp : ∀ o ≤ buf.length, ReadsSome buf o (p o)) : Φ.Sat p :=
  h.sat_of_le fun o ho => h.numbers ho (hp o ho)

/-- The readers that start with a size. -/
theorem sat_sized (h : ReaderRules Φ env buf fuel) (hb : Addressable buf) {α : Type} {f : Nat → Reader α}
    (hf : ∀ d < 2 ^ 32, Φ.Sat (f d)) : Φ.Sat (readUint32 buf >>= f) := by
  intro o
  refine Φ.satAt_bind (h.sat_number (fun o ho => readUint32_run hb ho) o) fun d o' hd => ?_
  exact hf d (readUint32_lt o d o' hd) o'

theorem sat_readBytes (h : ReaderRules Φ env buf fuel) (hb : Addressable buf) {view : Bool}
    (hv : view = true → env.inlineBuffers = true) (m : Nat) : Φ.Sat (readBytes view m buf) :=
  h.sat_sized hb fun _ hd => h.sat_of_le fun _ ho =>
    Φ.satAt_of_run rfl (h.bytes hv ho hd (takeBytes_run view m hb ho hd))

theorem sat_readObjectId (h : ReaderRules Φ env buf fuel) (hb : Addressable buf) :
    Φ.Sat (readObjectId buf) :=
  h.sat_sized hb fun _ hd => h.sat_of_le fun _ ho =>
    Φ.satAt_of_run rfl (h.objectId ho hd (takeObjectId_run hb ho))

theorem sat_readUnit (h : ReaderRules Φ env buf fuel) (hb : Addressable buf) {α : Type}
    {inner : Nat → Reader α} (hi : ∀ stop ≤ buf.length, Φ.Sat (inner stop)) (complete : α → Bool)
    (current : α) : Φ.Sat (readUnit inner complete buf current) := by
  refine h.sat_sized hb fun d _ => h.sat_of_le fun o ho => ?_
  apply Φ.satAt_offset_bind
  by_cases h0 : d = 0
  · rw [if_pos h0]
    by_cases hc : complete current
    · rw [if_pos hc]
      exact Φ.satAt_log_bind (h.enters (.inl rfl) (by omega)) (Φ.satAt_pure _ o)
    · rw [if_neg hc]
      exact h.refuses (.inl rfl) ho
  · rw [if_neg h0]
    by_cases hfit : buf.length < o + d
    · rw [if_pos hfit]
      exact h.refuses (.inl rfl) ho
    · rw [if_neg hfit]
      exact Φ.satAt_log_bind (h.enters (.inl rfl) (by omega)) (hi _ (by omega) o)

theorem sat_deserializeFields (h : ReaderRules Φ env buf fuel) {α : Type}
    {find : Nat → Option (UnitFieldParser α)} (hp : ∀ id p, find id = some p → ∀ x, Φ.Sat (p.fn x))
    (complete : α → Bool) (fresh : α) {size : Nat} (hs : size ≤ buf.length) :
    Φ.Sat (deserializeFields find complete buf fuel fresh size) := by
  refine Φ.sat_bind (h.fields hp size fresh hs) fun x => ?_
  split
  · exact Φ.sat_pure x
  · exact h.rejects

theorem sat_readMapDatum (h : ReaderRules Φ env buf fuel) (hb : Addressable buf) (t : MapType) :
    Φ.Sat (readMapDatum buf t) := by
  cases t with
  | int signed w =>
    exact Φ.sat_bind (h.sat_number fun o ho => readVariable_run signed w hb ho) fun _ => Φ.sat_pure _
  | string => exact Φ.sat_bind (h.sat_readBytes hb (by simp) _) fun _ => Φ.sat_pure _
  | other => exact h.rejects

theorem sat_mapItemParser (h : ReaderRules Φ env buf fuel) (hb : Addressable buf) (key value : MapType) :
    ∀ id p, mapItemParser key value buf id = some p → ∀ x, Φ.Sat (p.fn x) := by
  intro id p hp x
  unfold mapItemParser at hp
  split at hp
  · cases hp
    exact Φ.sat_bind (h.sat_readMapDatum hb key) fun _ => Φ.sat_pure _
  · cases hp
    exact Φ.sat_bind (h.sat_readMapDatum hb value) fun _ => Φ.sat_pure _

theorem sat_takeCounted (h : ReaderRules Φ env buf fuel) {element : Reader Value} (he : Φ.Sat element)
    (count : Nat) : Φ.Sat (takeCounted element buf count) := by
  intro o
  apply Φ.satAt_offset_bind
  split
  · exact h.rejects o
  · split
    · exact h.rejects o
    · exact Φ.satAt_bind (sat_times Φ he count o) fun _ o' _ => Φ.satAt_pure _ o'

theorem sat_takePacked (h : ReaderRules Φ env buf fuel) {element : Reader Int}
    (he : ∀ o ≤ buf.length, ReadsSome buf o (element o)) (length : Nat) :
    Φ.Sat (takePacked element buf fuel length) := by
  refine h.sat_of_le fun o ho => ?_
  apply Φ.satAt_offset_bind
  by_cases hfit : (buf.length : Int) - o < length
  · rw [if_pos hfit]
    exact h.refuses (.inr rfl) ho
  · rw [if_neg hfit]
    refine Φ.satAt_log_bind (h.enters (.inr rfl) (by omega)) ?_
    exact Φ.satAt_bind (h.scalars he _ _ (by omega) o) fun _ o' _ => Φ.satAt_pure _ o'

theorem sat_findField {parsers : List FieldParser} (hp : ∀ p ∈ parsers, ∀ x, Φ.Sat (p.fn x)) :
    ∀ id p, findField parsers id = some p → ∀ x, Φ.Sat (p.fn x) := by
  intro id p hf x
  rw [findField, Option.map_eq_some_iff] at hf
  obtain ⟨⟨q, i⟩, hq, rfl⟩ := hf
  have hmem : q ∈ parsers := by
    have hz := List.mem_of_find?_eq_some hq
    exact (List.mem_zipIdx' hz).2 ▸ List.getElem_mem _
  exact Φ.sat_bind (hp q hmem _) fun _ => Φ.sat_pure _

mutual

theorem sat_elem (h : ReaderRules Φ env buf fuel) (hb : Addressable buf) :
    ∀ (t : ElemType) (current : Value), Φ.Sat (t.read env buf fuel current)
  | .scalar t, _ => by
    rw [ElemType.read]
    exact Φ.sat_bind (h.sat_number fun o ho => readScalar_run env t hb ho) fun _ => Φ.sat_pure _
  | .bytes _, _ => by
    rw [ElemType.read]
    exact Φ.sat_bind (h.sat_readBytes hb (fun hv => (Bool.and_eq_true_iff.mp hv).1) _)
      fun _ => Φ.sat_pure _
  | .objectId, _ => by
    rw [ElemType.read]
    exact Φ.sat_bind (h.sat_readObjectId hb) fun _ => Φ.sat_pure _
  | .unit fs, _ => by
    rw [ElemType.read]
    refine Φ.sat_bind (h.sat_readUnit hb (fun stop hs => ?_) _ _) fun _ => Φ.sat_pure _
    exact h.sat_deserializeFields (sat_findField (sat_fields h hb fs)) _ _ hs

theorem sat_kind (h : ReaderRules Φ env buf fuel) (hb : Addressable buf) :
    ∀ (k : FieldKind) (x : FieldValue), Φ.Sat (k.deserialize env buf fuel x)
  | .single t, _ => by
    rw [FieldKind.deserialize]
    exact Φ.sat_bind (sat_elem h hb t _) fun _ => Φ.sat_pure _
  | .counted t, _ => by
    rw [FieldKind.deserialize]
    exact h.sat_sized hb fun count _ => h.sat_takeCounted (sat_elem h hb t _) count
  | .unpacked t, _ => by
    rw [FieldKind.deserialize]
    exact Φ.sat_bind (sat_elem h hb t _) fun _ => Φ.sat_pure _
  | .packed t, _ => by
    rw [FieldKind.deserialize]
    exact h.sat_sized hb fun length _ =>
      h.sat_takePacked (fun o ho => readScalar_run env t hb ho) length
  | .map key value, _ => by
    rw [FieldKind.deserialize]
    refine Φ.sat_bind (h.sat_readUnit hb (fun stop hs => ?_) _ _) fun _ => Φ.sat_pure _
    exact h.sat_deserializeFields (h.sat_mapItemParser hb key value) _ _ hs

theorem sat_field (h : ReaderRules Φ env buf fuel) (hb : Addressable buf) :
    ∀ (f : Field) (x : FieldValue), Φ.Sat ((f.parser env buf fuel).fn x)
  | .mk _ _ kind, x => by
    rw [Field.parser]
    exact sat_kind h hb kind x

theorem sat_fields (h : ReaderRules Φ env buf fuel) (hb : Addressable buf) :
    ∀ (fs : List Field), ∀ p ∈ fieldParsers env buf fuel fs, ∀ x, Φ.Sat (p.fn x)
  | [], p, hp, _ => by
    rw [fieldParsers] at hp
    cases hp
  | f :: fs, p, hp, x => by
    rw [fieldParsers] at hp
    rcases List.mem_cons.mp hp with rfl | hp
    · exact sat_field h hb f x
    · exact sat_fields h hb fs p hp x

end

/-- **A property with these rules is one of every parse.** -/
theorem sat_deserialize (h : ReaderRules Φ env buf fuel) (hb : Addressable buf)
    (fs : List Field) : Φ.Sat (deserialize env fs buf fuel) :=
  h.sat_deserializeFields (sat_findField (sat_fields h hb fs)) _ _ le_rfl

end ReaderRules

end Hatn.Dataunit
