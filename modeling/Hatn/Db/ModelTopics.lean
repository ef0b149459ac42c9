import Hatn.Common.MachineInt

/-!
# Relations between models and topics

The number of objects of a model in a topic is stored in a relation, to which operands
are merged.  `FullMergeV2` applies operands to the stored relation, `PartialMergeMulti`
combines operands without it.  A combined operand is a relation as well, and a relation
among the operands replaces what was counted before it; so a group of combined operands
counts from zero, and `regrouped_iff` says when that makes no difference.
-/

namespace Hatn.Db

open Hatn.Common

/-- `TtlMark` -/
@[ext] structure TtlMark where
  bytes : List UInt8
  size : bytes.length = 1 ∨ bytes.length = 5
  deriving DecidableEq

namespace TtlMark

def null : TtlMark := ⟨[0], .inl rfl⟩

def isNull (t : TtlMark) : Bool := t.bytes.length ≤ 1

/-- `load`: without bytes the mark is cleared; no other sizes are loaded. -/
def load (l : List UInt8) : TtlMark :=
  if h : l.length = 1 ∨ l.length = 5 then ⟨l, h⟩ else null

def fillExpireAt (expireAt : Nat) : TtlMark :=
  if 0 < expireAt then ⟨leBytes 4 expireAt ++ [1], .inr (by simp)⟩ else null

theorem load_bytes (t : TtlMark) : load t.bytes = t := by rw [load, dif_pos t.size]

end TtlMark

namespace ModelTopics

inductive Operator
  | add | del | update
  deriving DecidableEq, Repr

def Operator.num : Operator → UInt8
  | add => 0
  | del => 1
  | update => 2

@[ext] structure Relation where
  version : UInt8
  count : UInt64
  ttl : TtlMark
  deriving DecidableEq

/-- A relation as it is declared. -/
def Relation.fresh : Relation := ⟨1, 0, .null⟩

/-- `deserializeOperation` -/
def deserializeOperation : List UInt8 → Option UInt8
  | [b] => some b
  | _ => none

def serializeRelation (rel : Relation) : List UInt8 :=
  rel.version :: leBytes 8 rel.count.toNat ++ rel.ttl.bytes

def deserializeRelation (data : List UInt8) : Option Relation :=
  if data.length ≠ 10 ∧ data.length ≠ 14 then none
  else some ⟨data.headD 0, UInt64.ofNat (leNumber ((data.drop 1).take 8)), .load (data.drop 9)⟩

theorem deserializeRelation_serializeRelation (rel : Relation) :
    deserializeRelation (serializeRelation rel) = some rel := by
  have hlen : (serializeRelation rel).length = 9 + rel.ttl.bytes.length := by
    simp only [serializeRelation, List.length_append, List.length_cons, leBytes_length]
  have hcount : (List.drop 1 (serializeRelation rel)).take 8 = leBytes 8 rel.count.toNat :=
    List.take_left' (leBytes_length 8 _)
  have httl : List.drop 9 (serializeRelation rel) = rel.ttl.bytes :=
    List.drop_left' (by rw [List.length_cons, leBytes_length])
  have h64 : (256 : Nat) ^ 8 = 2 ^ 64 := by norm_num
  rw [deserializeRelation, if_neg (by have := rel.ttl.size; omega), hcount, httl, leNumber_leBytes,
    h64, Nat.mod_eq_of_lt rel.count.toNat_lt, UInt64.ofNat_toNat, TtlMark.load_bytes]
  rfl

/-! ### Merging -/

/-- `mergeRelOp` -/
def mergeRelOp (rel : Relation) (op : UInt8) : Relation :=
  let count :=
    if op = Operator.del.num then (if 0 < rel.count then rel.count - 1 else rel.count)
    else if op = Operator.add.num then rel.count + 1
    else rel.count
  let ttl :=
    if count = 0 then .fillExpireAt 0x1000
    else if rel.ttl.isNull then rel.ttl
    else .null
  { rel with count := count, ttl := ttl }

/-- One operand: an operation, or else a relation. -/
def mergeOperand (rel : Relation) (operand : List UInt8) : Option Relation :=
  match deserializeOperation operand with
  | some op => some (mergeRelOp rel op)
  | none => deserializeRelation operand

/-- The loop over the operands in both merges. -/
def mergeOperands : Relation → List (List UInt8) → Option Relation
  | rel, [] => some rel
  | rel, operand :: operands => do
    let rel' ← mergeOperand rel operand
    mergeOperands rel' operands

/-- `FullMergeV2` -/
def fullMergeV2 (existing : Option (List UInt8)) (operands : List (List UInt8)) :
    Option (List UInt8) := do
  let rel ←
    match existing with
    | some value => deserializeRelation value
    | none => some .fresh
  let rel' ← mergeOperands rel operands
  return serializeRelation rel'

/-- `PartialMergeMulti` -/
def partialMergeMulti (operands : List (List UInt8)) : Option (List UInt8) :=
  (mergeOperands .fresh operands).map serializeRelation

/-! ### Counting -/

/-- The count of a stored value, zero where nothing is stored. -/
def storedCount : Option (List UInt8) → Option UInt64
  | none => some 0
  | some value => (deserializeRelation value).map Relation.count

def countAfter : UInt64 → List Operator → UInt64
  | c, [] => c
  | c, .add :: ops => countAfter (c + 1) ops
  | c, .del :: ops => countAfter (if 0 < c then c - 1 else c) ops
  | c, .update :: ops => countAfter c ops

theorem countAfter_append (c : UInt64) : ∀ {ops : List Operator} (ops' : List Operator),
    countAfter c (ops ++ ops') = countAfter (countAfter c ops) ops' := by
  intro ops
  induction ops generalizing c with
  | nil => intro ops'; rfl
  | cons op ops ih => intro ops'; cases op <;> exact ih _ ops'

/-- The deletes that find no object and are dropped, from the count `c` on. -/
def dropped : UInt64 → List Operator → UInt64
  | _, [] => 0
  | c, .add :: ops => dropped (c + 1) ops
  | c, .del :: ops => if 0 < c then dropped (c - 1) ops else 1 + dropped c ops
  | c, .update :: ops => dropped c ops

/-- Added objects less deleted ones. -/
def net : List Operator → UInt64
  | [] => 0
  | .add :: ops => 1 + net ops
  | .del :: ops => net ops - 1
  | .update :: ops => net ops

/-- **No object is lost**: the count is what was there, what came, and what was dropped. -/
theorem countAfter_eq (c : UInt64) : ∀ ops, countAfter c ops = c + net ops + dropped c ops := by
  intro ops
  induction ops generalizing c with
  | nil => simp [countAfter, net, dropped]
  | cons op ops ih =>
    cases op with
    | add =>
      rw [countAfter, net, dropped, ih]
      grind
    | del =>
      rw [countAfter, net, dropped]
      by_cases hc : 0 < c
      · rw [if_pos hc, if_pos hc, ih]
        grind
      · rw [if_neg hc, if_neg hc, ih]
        grind
    | update => exact ih c

/-! ### Groups of operands -/

/-- An operand as it was written, or operands that were combined. -/
inductive Grouping
  | operand (op : Operator)
  | combined (l : List Grouping)

mutual

/-- The bytes of an operand, by the partial merge where it is combined. -/
def Grouping.bytes : Grouping → Option (List UInt8)
  | .operand op => some [op.num]
  | .combined l => do
    let operands ← groupsBytes l
    partialMergeMulti operands

def groupsBytes : List Grouping → Option (List (List UInt8))
  | [] => some []
  | g :: gs => do
    let operand ← g.bytes
    let operands ← groupsBytes gs
    return operand :: operands

end

mutual

/-- The operands as they were written. -/
def Grouping.operators : Grouping → List Operator
  | .operand op => [op]
  | .combined l => groupsOperators l

def groupsOperators : List Grouping → List Operator
  | [] => []
  | g :: gs => g.operators ++ groupsOperators gs

end

mutual

/-- The operands before the last group, the innermost one there, and those from it on. -/
def Grouping.lastGroup : Grouping → Option (List Operator × List Operator)
  | .operand _ => none
  | .combined l => some ((groupsLastGroup l).getD ([], groupsOperators l))

def groupsLastGroup : List Grouping → Option (List Operator × List Operator)
  | [] => none
  | g :: gs =>
    match groupsLastGroup gs with
    | some (before, rest) => some (g.operators ++ before, rest)
    | none => g.lastGroup.map fun p => (p.1, p.2 ++ groupsOperators gs)

end

/-- The count behind operands: the last group among them counts from zero. -/
def groupsCount (c : UInt64) (gs : List Grouping) : UInt64 :=
  match groupsLastGroup gs with
  | some (_, rest) => countAfter 0 rest
  | none => countAfter c (groupsOperators gs)

theorem mergeRelOp_count (rel : Relation) (op : Operator) :
    (mergeRelOp rel op.num).count = countAfter rel.count [op] := by
  cases op <;> rfl

theorem mergeOperand_op (rel : Relation) (op : Operator) :
    mergeOperand rel [op.num] = some (mergeRelOp rel op.num) := rfl

theorem mergeOperand_relation (rel rel' : Relation) :
    mergeOperand rel (serializeRelation rel') = some rel' := by
  have hnone : deserializeOperation (serializeRelation rel') = none := by
    rw [serializeRelation, List.cons_append, leBytes, List.cons_append]
    rfl
  rw [mergeOperand, hnone]
  exact deserializeRelation_serializeRelation rel'

theorem groupsCount_cons (c : UInt64) (g : Grouping) (gs : List Grouping) :
    groupsCount c (g :: gs) =
      groupsCount (match g.lastGroup with
        | some (_, rest) => countAfter 0 rest
        | none => countAfter c g.operators) gs := by
  rw [groupsCount, groupsLastGroup, groupsOperators, groupsCount]
  cases hgs : groupsLastGroup gs with
  | some p => rfl
  | none =>
    cases hg : g.lastGroup with
    | some p => exact countAfter_append 0 _
    | none => exact countAfter_append c _

mutual

/-- **An operand is merged** and leaves a count. -/
theorem Grouping.merges : ∀ (g : Grouping), ∃ operand, g.bytes = some operand ∧
    ∀ rel, ∃ rel', mergeOperand rel operand = some rel' ∧
      rel'.count = match g.lastGroup with
        | some (_, rest) => countAfter 0 rest
        | none => countAfter rel.count g.operators
  | .operand op => ⟨[op.num], rfl, fun rel =>
    ⟨mergeRelOp rel op.num, mergeOperand_op rel op, mergeRelOp_count rel op⟩⟩
  | .combined l => by
    obtain ⟨operands, hb, hm⟩ := groups_merge l
    obtain ⟨rel', hrel', hcount⟩ := hm .fresh
    refine ⟨serializeRelation rel', ?_, fun rel =>
      ⟨rel', mergeOperand_relation rel rel', ?_⟩⟩
    · rw [Grouping.bytes, hb]
      show (mergeOperands .fresh operands).map serializeRelation = _
      rw [hrel']
      rfl
    · rw [hcount, Grouping.lastGroup, groupsCount]
      cases groupsLastGroup l <;> rfl

theorem groups_merge : ∀ (gs : List Grouping), ∃ operands, groupsBytes gs = some operands ∧
    ∀ rel, ∃ rel', mergeOperands rel operands = some rel' ∧
      rel'.count = groupsCount rel.count gs
  | [] => ⟨[], rfl, fun rel => ⟨rel, rfl, rfl⟩⟩
  | g :: gs => by
    obtain ⟨operand, hb, hm⟩ := g.merges
    obtain ⟨operands, hbs, hms⟩ := groups_merge gs
    refine ⟨operand :: operands, by rw [groupsBytes, hb, hbs]; rfl, fun rel => ?_⟩
    obtain ⟨rel₁, h₁, hc₁⟩ := hm rel
    obtain ⟨rel₂, h₂, hc₂⟩ := hms rel₁
    refine ⟨rel₂, ?_, ?_⟩
    · rw [mergeOperands, h₁]
      exact h₂
    · rw [hc₂, hc₁, ← groupsCount_cons]

end

/-! ### One by one, and in groups -/

/-- Each operand is merged to the value that the operands before it have left. -/
def oneByOne : Option (List UInt8) → List Operator → Option (Option (List UInt8))
  | value, [] => some value
  | value, op :: ops => do
    let value' ← fullMergeV2 value [[op.num]]
    oneByOne (some value') ops

/-- Groups are combined, then all is merged to the value. -/
def regrouped (value : Option (List UInt8)) (gs : List Grouping) : Option (List UInt8) := do
  let operands ← groupsBytes gs
  fullMergeV2 value operands

theorem fullMergeV2_eq {value : Option (List UInt8)} {operands : List (List UInt8)}
    {f : UInt64 → UInt64}
    (h : ∀ rel, ∃ rel', mergeOperands rel operands = some rel' ∧ rel'.count = f rel.count) :
    (fullMergeV2 value operands).bind (fun v => storedCount (some v)) =
      (storedCount value).map f := by
  have hstart : ∀ rel, (mergeOperands rel operands >>= fun rel' => some (serializeRelation rel')).bind
      (fun v => storedCount (some v)) = some (f rel.count) := by
    intro rel
    obtain ⟨rel', hm, hc⟩ := h rel
    rw [hm]
    show (deserializeRelation (serializeRelation rel')).map Relation.count = _
    rw [deserializeRelation_serializeRelation, Option.map_some, hc]
  cases value with
  | none => exact hstart .fresh
  | some v =>
    rw [fullMergeV2, storedCount]
    dsimp only
    cases deserializeRelation v with
    | none => rfl
    | some rel => exact hstart rel

theorem regrouped_count (value : Option (List UInt8)) (gs : List Grouping) :
    (regrouped value gs).bind (fun v => storedCount (some v)) =
      (storedCount value).map (fun c => groupsCount c gs) := by
  obtain ⟨operands, hb, hm⟩ := groups_merge gs
  rw [regrouped, hb]
  exact fullMergeV2_eq hm

theorem oneByOne_count : ∀ (ops : List Operator) (value : Option (List UInt8)),
    (oneByOne value ops).bind storedCount = (storedCount value).map (fun c => countAfter c ops) := by
  intro ops
  induction ops with
  | nil =>
    intro value
    show storedCount value = _
    cases storedCount value <;> rfl
  | cons op ops ih =>
    intro value
    have hone : (fullMergeV2 value [[op.num]]).bind (fun v => storedCount (some v)) =
        (storedCount value).map (fun c => countAfter c [op]) :=
      fullMergeV2_eq fun rel => ⟨mergeRelOp rel op.num, rfl, mergeRelOp_count rel op⟩
    have hbind : (oneByOne value (op :: ops)).bind storedCount =
        ((fullMergeV2 value [[op.num]]).bind (fun v => storedCount (some v))).map
          (fun c => countAfter c ops) := by
      rw [oneByOne]
      cases fullMergeV2 value [[op.num]] with
      | none => rfl
      | some v => exact ih (some v)
    rw [hbind, hone, Option.map_map]
    congr 1
    funext c
    exact (countAfter_append c ops).symm

/-- The operands from the last group on drop as many deletes more, when they count from
zero, as were counted before. -/
def Compensated (value : Option (List UInt8)) (gs : List Grouping) : Prop :=
  ∀ c before rest, storedCount value = some c → groupsLastGroup gs = some (before, rest) →
    countAfter c before + dropped (countAfter c before) rest = dropped 0 rest

mutual

theorem Grouping.lastGroup_operators : ∀ {g : Grouping} {p : List Operator × List Operator},
    g.lastGroup = some p → g.operators = p.1 ++ p.2
  | .operand _, _, h => nomatch h
  | .combined l, p, h => by
    rw [Grouping.lastGroup, Option.some.injEq] at h
    subst h
    rw [Grouping.operators]
    cases hl : groupsLastGroup l with
    | none => rfl
    | some q => exact groupsLastGroup_operators hl

/-- The last group splits the operands in those before it and those from it on. -/
theorem groupsLastGroup_operators : ∀ {gs : List Grouping} {p : List Operator × List Operator},
    groupsLastGroup gs = some p → groupsOperators gs = p.1 ++ p.2
  | [], _, h => nomatch h
  | g :: gs, p, h => by
    rw [groupsLastGroup] at h
    rw [groupsOperators]
    cases hgs : groupsLastGroup gs with
    | some q =>
      rw [hgs] at h
      cases h
      rw [groupsLastGroup_operators hgs, List.append_assoc]
    | none =>
      rw [hgs] at h
      obtain ⟨q, hq, rfl⟩ := Option.map_eq_some_iff.mp h
      rw [Grouping.lastGroup_operators hq, List.append_assoc]

end

/-- **Combined operands give the same count** just when the last group makes up for what
was counted before it. -/
theorem regrouped_iff (value : Option (List UInt8)) (gs : List Grouping) :
    (regrouped value gs).bind (fun v => storedCount (some v)) =
        (oneByOne value (groupsOperators gs)).bind storedCount ↔
      Compensated value gs := by
  rw [regrouped_count, oneByOne_count]
  cases hv : storedCount value with
  | none => exact ⟨fun _ c _ _ hc => (nomatch hc.symm.trans hv), fun _ => rfl⟩
  | some c =>
    rw [Option.map_some, Option.map_some, Option.some.injEq, groupsCount]
    cases hg : groupsLastGroup gs with
    | none => exact ⟨fun _ _ _ _ _ h => (nomatch h.symm.trans hg), fun _ => rfl⟩
    | some p =>
      obtain ⟨before, rest⟩ := p
      rw [groupsLastGroup_operators hg, countAfter_append]
      dsimp only
      rw [countAfter_eq 0, countAfter_eq _ rest]
      constructor
      · intro h c' before' rest' hc' hg'
        rw [hv] at hc'
        rw [hg] at hg'
        cases hc'
        cases hg'
        grind
      · intro h
        have := h c before rest hv hg
        grind

/-- One object is there and two are added: combined, their operands leave two objects. -/
theorem regrouped_two_adds : ¬ ∀ (value : Option (List UInt8)) (gs : List Grouping),
    (regrouped value gs).bind (fun v => storedCount (some v)) =
      (oneByOne value (groupsOperators gs)).bind storedCount := by
  intro h
  have h := h (some [1, 1, 0, 0, 0, 0, 0, 0, 0, 0]) [.combined [.operand .add, .operand .add]]
  revert h
  decide +kernel

/-! ### When a group makes up for what was counted -/

/-- The number of objects that the operands can take away. -/
def depth : List Operator → Nat
  | [] => 0
  | .add :: ops => depth ops - 1
  | .del :: ops => depth ops + 1
  | .update :: ops => depth ops

def adds (ops : List Operator) : Nat := ops.count .add

theorem dropped_eq (c : UInt64) : ∀ {ops : List Operator}, c.toNat + adds ops < 2 ^ 64 →
    dropped c ops = UInt64.ofNat (depth ops - c.toNat) := by
  intro ops
  induction ops generalizing c with
  | nil =>
    intro _
    rw [depth, Nat.zero_sub]
    rfl
  | cons op ops ih =>
    intro h
    cases op with
    | add =>
      have hadds : adds (.add :: ops) = adds ops + 1 := List.count_cons_self
      have hc : (c + 1).toNat = c.toNat + 1 := by
        rw [UInt64.toNat_add, UInt64.toNat_one, Nat.mod_eq_of_lt (by omega)]
      rw [dropped, depth, ih (c + 1) (by omega), hc]
      congr 1
      omega
    | del =>
      have hadds : adds (.del :: ops) = adds ops := List.count_cons_of_ne (by decide)
      rw [dropped, depth]
      by_cases hpos : 0 < c
      · have hc : (c - 1).toNat = c.toNat - 1 := UInt64.toNat_sub_of_le c 1 hpos
        have hnat : 0 < c.toNat := hpos
        rw [if_pos hpos, ih (c - 1) (by omega), hc]
        congr 1
        omega
      · have hc : c.toNat = 0 := Nat.eq_zero_of_not_pos hpos
        rw [if_neg hpos, ih c (by omega), hc, Nat.sub_zero, Nat.sub_zero, UInt64.ofNat_add,
          UInt64.add_comm]
        rfl
    | update =>
      have hadds : adds (.update :: ops) = adds ops := List.count_cons_of_ne (by decide)
      exact ih c (by omega)

/-- **Short of an overflow**, operands make up for what was counted before them just when
they can take all of it away. -/
theorem compensated_iff_le_depth {c : UInt64} {ops : List Operator}
    (h : c.toNat + adds ops < 2 ^ 64) :
    c + dropped c ops = dropped 0 ops ↔ c.toNat ≤ depth ops := by
  have h0 : dropped 0 ops = UInt64.ofNat (depth ops) :=
    dropped_eq 0 (by rw [UInt64.toNat_zero]; omega)
  rw [dropped_eq c h, h0]
  constructor
  · intro he
    by_contra hlt
    have hzero : depth ops - c.toNat = 0 := by omega
    have hn := congrArg UInt64.toNat he
    have hmod : depth ops % 2 ^ 64 = depth ops := Nat.mod_eq_of_lt (by have := c.toNat_lt; omega)
    rw [hzero, UInt64.toNat_add, UInt64.toNat_ofNat', UInt64.toNat_ofNat', hmod, Nat.zero_mod,
      Nat.add_zero, Nat.mod_eq_of_lt c.toNat_lt] at hn
    omega
  · intro hle
    have hsum : depth ops = c.toNat + (depth ops - c.toNat) := by omega
    conv_rhs => rw [hsum, UInt64.ofNat_add, UInt64.ofNat_toNat]

end ModelTopics

end Hatn.Db
