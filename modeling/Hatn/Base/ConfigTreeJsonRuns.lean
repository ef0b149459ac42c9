import Hatn.Base.ConfigTreeJson
import Mathlib.Algebra.GroupWithZero.Nat

/-!
# Runs of the JSON parser

What the parser does with the calls of a tree depends on its stack.  A null pops a context, also in
an array, which is then closed once more than it was opened: the stack gets too short
(`length_writeTree`), and at the end of the text there is nothing to pop.  If there are no nulls in
arrays, then the calls of a tree make the node that `read` gives, and leave the rest of the tree and
of the stack (`run_writeTree`).
-/

namespace Hatn.Base

open Tables

namespace ConfigTreeValue

variable {t c : ConfigTreeValue} {place : List Edge}

/-! ### Nodes at places -/

theorem at_append (place q : List Edge) : ∀ t : ConfigTreeValue,
    t.at_ (place ++ q) = (t.at_ place).bind fun c => c.at_ q := by
  induction place with
  | nil => exact fun _ => rfl
  | cons e place ih =>
    intro t
    rw [List.cons_append, at_, at_]
    cases t.child e with
    | none => rfl
    | some c => exact ih c

theorem at_replaceAt (c' : ConfigTreeValue) (place : List Edge) : ∀ {t c : ConfigTreeValue},
    t.at_ place = some c → (replaceAt c' place t).at_ place = some c' := by
  induction place with
  | nil => exact fun _ => rfl
  | cons e place ih =>
    intro t c h
    rw [at_] at h
    obtain ⟨d, hd, hat⟩ := Option.bind_eq_some_iff.mp h
    rw [replaceAt, hd, at_]
    dsimp only
    rw [child_setChild_self (hd ▸ rfl)]
    exact ih hat

theorem replaceAt_at (place : List Edge) : ∀ {t c : ConfigTreeValue},
    t.at_ place = some c → replaceAt c place t = t := by
  induction place with
  | nil => exact fun h => (Option.some.inj h).symm
  | cons e place ih =>
    intro t c h
    rw [at_] at h
    obtain ⟨d, hd, hat⟩ := Option.bind_eq_some_iff.mp h
    rw [replaceAt, hd]
    dsimp only
    rw [ih hat, setChild_of_child hd]

theorem setChild_setChild {e : Edge} {d : ConfigTreeValue} (h : t.child e = some d)
    (c c' : ConfigTreeValue) : (t.setChild e c).setChild e c' = t.setChild e c' := by
  have hself : (t.setChild e c).child e = some c := child_setChild_self (h ▸ rfl)
  refine ext ?_ fun e' => ?_
  · rw [seen_setChild, seen_setChild, seen_setChild]
  · by_cases he : e' = e
    · rw [he, child_setChild_self (hself ▸ rfl), child_setChild_self (h ▸ rfl)]
    · rw [child_setChild_of_ne he, child_setChild_of_ne he, child_setChild_of_ne he]

theorem replaceAt_replaceAt (c' c'' : ConfigTreeValue) (place : List Edge) :
    ∀ {t c : ConfigTreeValue}, t.at_ place = some c →
      replaceAt c'' place (replaceAt c' place t) = replaceAt c'' place t := by
  induction place with
  | nil => exact fun _ => rfl
  | cons e place ih =>
    intro t c h
    rw [at_] at h
    obtain ⟨d, hd, hat⟩ := Option.bind_eq_some_iff.mp h
    rw [replaceAt, replaceAt, hd]
    dsimp only
    rw [child_setChild_self (hd ▸ rfl)]
    dsimp only
    rw [setChild_setChild hd, ih hat, replaceAt, hd]

/-- A child of the node that was put at a place. -/
theorem replaceAt_child {e : Edge} {d : ConfigTreeValue} (hc : c.child e = some d)
    (c' : ConfigTreeValue) (place : List Edge) : ∀ {t t' : ConfigTreeValue}, t.at_ place = some t' →
      replaceAt c' (place ++ [e]) (replaceAt c place t) = replaceAt (c.setChild e c') place t := by
  induction place with
  | nil =>
    intro t t' _
    show replaceAt c' [e] c = c.setChild e c'
    rw [replaceAt, hc]
    rfl
  | cons e' place ih =>
    intro t t' h
    rw [at_] at h
    obtain ⟨d', hd', hat⟩ := Option.bind_eq_some_iff.mp h
    rw [List.cons_append, replaceAt, replaceAt, hd']
    dsimp only
    rw [child_setChild_self (hd' ▸ rfl)]
    dsimp only
    rw [setChild_setChild hd', ih hat, replaceAt, hd']

theorem at_child {e : Edge} {d : ConfigTreeValue} (hc : c.child e = some d) {t' : ConfigTreeValue}
    (h : t.at_ place = some t') : (replaceAt c place t).at_ (place ++ [e]) = some d := by
  rw [at_append, at_replaceAt c place h, Option.bind_some, at_, hc]
  rfl

end ConfigTreeValue

/-! ### The length of the stack -/

namespace Parser

variable {p p' : Parser}

theorem run_cons (p : Parser) (e : JsonEvent) (es : List JsonEvent) :
    p.run (e :: es) = p.handle e >>= fun q => q.run es := rfl

theorem run_append (p : Parser) (es es' : List JsonEvent) :
    p.run (es ++ es') = p.run es >>= fun q => q.run es' :=
  List.foldlM_append

theorem run_singleton (p : Parser) (e : JsonEvent) : p.run [e] = p.handle e := by
  rw [run_cons]
  cases p.handle e <;> rfl

theorem bind_eq_ok {α β : Type} {x : Except ParserError α} {f : α → Except ParserError β} {b : β} :
    (x >>= f) = .ok b ↔ ∃ a, x = .ok a ∧ f a = .ok b := by
  cases x with
  | error e => exact ⟨nofun, nofun⟩
  | ok a => exact ⟨fun h => ⟨a, rfl, h⟩, fun ⟨_, rfl, h⟩ => h⟩

/-- The context on top is in an array. -/
def inArray (p : Parser) : Bool :=
  match p.stack with
  | [] => false
  | ctx :: _ => ctx.inArray

theorem context_ok {ctx : Context} {stack : List Context} (h : p.context = .ok (ctx, stack)) :
    p.stack = ctx :: stack := by
  rw [context] at h
  split at h
  next => cases h
  next ctx' stack' hstack =>
    cases h
    exact hstack

theorem length_pop (h : p.pop = .ok p') : p'.stack.length + 1 = p.stack.length := by
  rw [pop] at h
  split at h
  next => cases h
  next ctx stack hstack =>
    cases h
    rw [hstack]
    rfl

theorem length_startObject (h : p.startObject = .ok p') :
    p'.stack.length = p.stack.length + p.inArray.toNat := by
  obtain ⟨⟨ctx, stack⟩, hctx, h⟩ := bind_eq_ok.mp h
  obtain ⟨⟨place, t⟩, -, h⟩ := bind_eq_ok.mp h
  rw [inArray, context_ok hctx]
  dsimp only at h ⊢
  cases hin : ctx.inArray with
  | false =>
    rw [hin] at h
    cases h
    rfl
  | true =>
    rw [hin] at h
    obtain ⟨r, -, h⟩ := bind_eq_ok.mp h
    cases h
    rfl

theorem length_startArray (h : p.startArray = .ok p') :
    p'.stack.length = p.stack.length + p.inArray.toNat := by
  obtain ⟨⟨ctx, stack⟩, hctx, h⟩ := bind_eq_ok.mp h
  obtain ⟨⟨place, t⟩, -, h⟩ := bind_eq_ok.mp h
  rw [inArray, context_ok hctx]
  dsimp only at h ⊢
  cases hin : ctx.inArray with
  | false =>
    rw [hin] at h
    cases hset : t.isSet with
    | true =>
      rw [hset] at h
      cases h
    | false =>
      rw [hset] at h
      cases h
      rfl
  | true =>
    rw [hin] at h
    obtain ⟨r, -, h⟩ := bind_eq_ok.mp h
    cases h
    rfl

theorem length_key {s : String} (h : p.key s = .ok p') :
    p'.stack.length = p.stack.length + 1 ∧ p'.inArray = false := by
  obtain ⟨⟨ctx, stack⟩, hctx, h⟩ := bind_eq_ok.mp h
  rw [context_ok hctx]
  dsimp only at h
  cases hmap : ctx.map with
  | false =>
    rw [hmap] at h
    cases h
  | true =>
    rw [hmap] at h
    obtain ⟨⟨place, t⟩, -, h⟩ := bind_eq_ok.mp h
    cases t with
    | map d m =>
      dsimp only at h
      cases hfind : m.find s with
      | none | some c =>
        rw [hfind] at h
        cases h
        exact ⟨rfl, rfl⟩
    | _ => cases h

theorem length_setValue {v : ConfigScalar} (h : p.setValue v = .ok p') :
    p'.stack.length + 1 = p.stack.length + p.inArray.toNat := by
  obtain ⟨⟨ctx, stack⟩, hctx, h⟩ := bind_eq_ok.mp h
  obtain ⟨⟨place, t⟩, -, h⟩ := bind_eq_ok.mp h
  rw [inArray, context_ok hctx]
  dsimp only at h ⊢
  cases hin : ctx.inArray with
  | false =>
    rw [hin] at h
    cases h
    rfl
  | true =>
    rw [hin] at h
    obtain ⟨r, -, h⟩ := bind_eq_ok.mp h
    cases h
    rw [context_ok hctx]
    rfl

theorem length_endArray (h : p.endArray = .ok p') : p'.stack.length + 1 = p.stack.length := by
  obtain ⟨⟨ctx, stack⟩, hctx, h⟩ := bind_eq_ok.mp h
  rw [context_ok hctx]
  dsimp only at h
  cases hin : ctx.inArray with
  | false =>
    rw [hin] at h
    cases h
  | true =>
    rw [hin] at h
    cases h
    rfl

/-- Parts of the text that shorten the stack shorten it together. -/
theorem length_flatMap {α : Type} {f : α → List JsonEvent} {g : α → Nat} (l : List α)
    (h : ∀ x ∈ l, ∀ p p' : Parser, p.run (f x) = .ok p' → p'.stack.length + g x ≤ p.stack.length) :
    ∀ {p p' : Parser}, p.run (l.flatMap f) = .ok p' →
      p'.stack.length + (l.map g).sum ≤ p.stack.length := by
  induction l with
  | nil =>
    intro p p' hrun
    cases hrun
    rfl
  | cons x l ih =>
    intro p p' hrun
    rw [List.flatMap_cons, run_append] at hrun
    obtain ⟨q, hq, hrun⟩ := bind_eq_ok.mp hrun
    have hx := h x List.mem_cons_self p q hq
    have hl := ih (fun y hy => h y (List.mem_cons_of_mem x hy)) hrun
    rw [List.map_cons, List.sum_cons]
    omega

/-- The first call, what is in between, and the last call. -/
theorem run_between {first last : JsonEvent} {inner : List JsonEvent}
    (h : p.run (first :: inner ++ [last]) = .ok p') :
    ∃ q q', p.handle first = .ok q ∧ q.run inner = .ok q' ∧ q'.handle last = .ok p' := by
  rw [List.cons_append, run_cons] at h
  obtain ⟨q, hq, h⟩ := bind_eq_ok.mp h
  rw [run_append] at h
  obtain ⟨q', hq', h⟩ := bind_eq_ok.mp h
  rw [run_singleton] at h
  exact ⟨q, q', hq, hq', h⟩

end Parser

/-! ### Values -/

/-- The values that an array is written as. -/
def ConfigArray.values : ConfigArray → List ConfigScalar
  | ints l => l.map fun n => .int ⟨.int64, n, Int64.ofInt_toInt n⟩
  | doubles l => l.map .double
  | bools l => l.map .bool
  | strings l => l.map .string

theorem events_eq (a : ConfigArray) : a.events = a.values.flatMap fun v => [v.event] := by
  have hflat : ∀ l : List ConfigScalar, (l.flatMap fun v => [v.event]) = l.map ConfigScalar.event :=
    fun _ => List.map_eq_flatMap.symm
  rw [hflat]
  cases a <;> rw [ConfigArray.events, ConfigArray.values, List.map_map] <;> rfl

/-- A value that is written and reported. -/
def ConfigScalar.reported : ConfigScalar → ConfigScalar
  | int n => int (.reported n.value)
  | double bits => double bits
  | bool b => bool b
  | string s => string (cStr s)

namespace ConfigTreeValue

/-- What a node of an array becomes by the calls of an item; `read` is the item as it is read, if it
is a map or an array. -/
def addItem (acc item : ConfigTreeValue) (read : Except ParserError ConfigTreeValue) :
    Except ParserError ConfigTreeValue :=
  match item with
  | unset none => .error .stackEmpty
  | unset (some v) | scalar _ v => acc.appendValue v.reported
  | _ => do
    let _ ← acc.appendTree fresh
    let c ← read
    let (t, _) ← acc.appendTree c
    return t

/-- What a map becomes by the calls of a key and of its entry. -/
def addKey (m : Keyed String ConfigTreeValue) (s : String) (entry : ConfigTreeValue)
    (read : Except ParserError ConfigTreeValue) :
    Except ParserError (Keyed String ConfigTreeValue) :=
  match m.find s with
  | none => read.map (m.insert s)
  | some _ => if entry.isSetOrDefault then .error .freed else .ok m

/-- The tree that is read from the text of a tree, if no null is in an array. -/
def read : ConfigTreeValue → Except ParserError ConfigTreeValue
  | unset none => .ok fresh
  | unset (some v) | scalar _ v => .ok (scalar none v.reported)
  | array _ a => a.values.foldlM (fun acc v => acc.appendValue v.reported) fresh
  | trees _ ⟨size, item⟩ =>
    (List.finRange size).foldlM (fun acc i => addItem acc (item i) (read (item i))) fresh
  | map _ ⟨keys, entry⟩ =>
    ((ordered keys).foldlM (fun m k => addKey m (cStr k.1) (entry k) (read (entry k)))
      .empty).map (map none)

/-- The number of nulls in arrays. -/
def nullItems : ConfigTreeValue → Nat
  | unset _ | scalar _ _ | array _ _ => 0
  | trees _ ⟨size, item⟩ => ((List.finRange size).map fun i =>
      nullItems (item i) + (!(item i).isSetOrDefault).toNat).sum
  | map _ ⟨keys, entry⟩ => ((ordered keys).map fun k => nullItems (entry k)).sum

end ConfigTreeValue

namespace Parser

open ConfigTreeValue

variable {p p' : Parser}

theorem run_event (p : Parser) (v : ConfigScalar) : p.run [v.event] = p.setValue v.reported := by
  rw [run_singleton]
  cases v <;> rfl

theorem toNat_not (b : Bool) : (!b).toNat + b.toNat = 1 := by cases b <;> rfl

theorem length_run_event {v : ConfigScalar} (h : p.run [v.event] = .ok p') :
    p'.stack.length + (!p.inArray).toNat = p.stack.length := by
  rw [run_event] at h
  have hlength := length_setValue h
  have hnot := toNat_not p.inArray
  omega

/-- **The stack after the calls of a tree.**  The context of the tree is popped, unless it is one of
an array; and so is one more for each null in an array. -/
theorem length_writeTree (t : ConfigTreeValue) : ∀ {p p' : Parser}, p.run (writeTree t) = .ok p' →
    p'.stack.length + t.nullItems + (!p.inArray).toNat ≤ p.stack.length ∧
      (t.isSetOrDefault = false → p'.stack.length + 1 ≤ p.stack.length) := by
  induction t with
  | unset d =>
    intro p p' h
    cases d with
    | none =>
      rw [writeTree, run_singleton] at h
      have hlength := length_pop h
      have hnot := toNat_not p.inArray
      rw [nullItems]
      exact ⟨by omega, fun _ => Nat.le_of_eq hlength⟩
    | some v => exact ⟨Nat.le_of_eq (length_run_event h), nofun⟩
  | scalar d v => exact fun h => ⟨Nat.le_of_eq (length_run_event h), nofun⟩
  | array d a =>
    intro p p' h
    refine ⟨?_, nofun⟩
    obtain ⟨q, q', hq, hinner, hend⟩ := run_between h
    have hstart := length_startArray hq
    have hend := length_endArray hend
    have hnot := toNat_not p.inArray
    rw [events_eq] at hinner
    have hitems := length_flatMap (g := fun _ => 0) a.values (fun v _ p p' hv =>
      (Nat.le_add_right _ _).trans (Nat.le_of_eq (length_run_event hv))) hinner
    rw [nullItems]
    omega
  | trees d items ih =>
    intro p p' h
    refine ⟨?_, nofun⟩
    obtain ⟨size, item⟩ := items
    obtain ⟨q, q', hq, hinner, hend⟩ := run_between h
    have hstart := length_startArray hq
    have hend := length_endArray hend
    have hnot := toNat_not p.inArray
    have hitems := length_flatMap (g := fun i =>
      nullItems (item i) + (!(item i).isSetOrDefault).toNat) (List.finRange size)
      (fun i _ p p' hrun => by
        obtain ⟨hi, hnull⟩ := ih i hrun
        cases hset : (item i).isSetOrDefault with
        | true => exact (Nat.le_add_right _ _).trans hi
        | false =>
          rw [eq_fresh hset]
          exact hnull hset) hinner
    rw [nullItems]
    omega
  | map d m ih =>
    intro p p' h
    refine ⟨?_, nofun⟩
    obtain ⟨keys, entry⟩ := m
    obtain ⟨q, q', hq, hinner, hend⟩ := run_between h
    have hstart := length_startObject hq
    have hend := length_pop hend
    have hnot := toNat_not p.inArray
    have hentries := length_flatMap (g := fun k => nullItems (entry k)) (ordered keys)
      (fun k _ p p' hrun => by
        rw [run_cons] at hrun
        obtain ⟨r, hr, hrun⟩ := bind_eq_ok.mp hrun
        obtain ⟨hlength, hin⟩ := length_key hr
        obtain ⟨hk, -⟩ := ih k hrun
        rw [hin] at hk
        have hk : p'.stack.length + nullItems (entry k) + 1 ≤ r.stack.length := hk
        omega) hinner
    rw [nullItems]
    omega

/-! ### The calls of a tree -/

/-- Parts of the text that are a loop over what the parser has read. -/
theorem run_flatMap {α β : Type} {f : α → List JsonEvent} {g : β → α → Except ParserError β}
    {R : β → Parser} (l : List α)
    (h : ∀ x ∈ l, ∀ b, (R b).run (f x) = (g b x).map R) :
    ∀ b, (R b).run (l.flatMap f) = (l.foldlM g b).map R := by
  induction l with
  | nil => exact fun _ => rfl
  | cons x l ih =>
    intro b
    rw [List.flatMap_cons, run_append, h x List.mem_cons_self, List.foldlM_cons]
    cases g b x with
    | error e => rfl
    | ok b => exact ih (fun y hy => h y (List.mem_cons_of_mem x hy)) b

/-- The context on top points to a node. -/
theorem node_top {T t : ConfigTreeValue} {place : List Edge} (h : T.at_ place = some t)
    (stack : List Context) (m a : Bool) :
    node ⟨T, stack⟩ ⟨some place, m, a⟩ = .ok (place, t) := by
  rw [node]
  dsimp only
  rw [h]

section Top
variable {T t : ConfigTreeValue} {place : List Edge} (h : T.at_ place = some t) (m : Bool)
  (S : List Context)
include h

theorem setValue_top (v : ConfigScalar) :
    setValue ⟨T, ⟨some place, m, false⟩ :: S⟩ v =
      .ok ⟨replaceAt (scalar t.default_ v) place T, S⟩ := by
  rw [setValue]
  dsimp only [context, bind, Except.bind]
  rw [node_top h]
  rfl

theorem setValue_item (v : ConfigScalar) :
    setValue ⟨T, ⟨some place, m, true⟩ :: S⟩ v =
      (t.appendValue v).map fun t => ⟨replaceAt t place T, ⟨some place, m, true⟩ :: S⟩ := by
  rw [setValue]
  dsimp only [context, bind, Except.bind]
  rw [node_top h]
  dsimp only
  rw [if_neg (by decide)]
  cases t.appendValue v <;> rfl

theorem startObject_top :
    startObject ⟨T, ⟨some place, m, false⟩ :: S⟩ =
      .ok ⟨replaceAt t.toMap place T, ⟨some place, true, false⟩ :: S⟩ := by
  rw [startObject]
  dsimp only [context, bind, Except.bind]
  rw [node_top h]
  rfl

theorem startObject_item :
    startObject ⟨T, ⟨some place, m, true⟩ :: S⟩ =
      (t.appendTree fresh.toMap).map fun r => ⟨replaceAt r.1 place T,
        ⟨some (place ++ [.index r.2]), true, false⟩ :: ⟨some place, m, true⟩ :: S⟩ := by
  rw [startObject]
  dsimp only [context, bind, Except.bind]
  rw [node_top h]
  dsimp only
  rw [if_neg (by decide)]
  cases t.appendTree fresh.toMap <;> rfl

theorem startArray_top (ht : t.isSet = false) :
    startArray ⟨T, ⟨some place, m, false⟩ :: S⟩ = .ok ⟨T, ⟨some place, m, true⟩ :: S⟩ := by
  rw [startArray]
  dsimp only [context, bind, Except.bind]
  rw [node_top h]
  dsimp only
  rw [ht]
  rfl

theorem startArray_item :
    startArray ⟨T, ⟨some place, m, true⟩ :: S⟩ =
      (t.appendTree fresh).map fun r => ⟨replaceAt r.1 place T,
        ⟨some (place ++ [.index r.2]), false, true⟩ :: ⟨some place, m, true⟩ :: S⟩ := by
  rw [startArray]
  dsimp only [context, bind, Except.bind]
  rw [node_top h]
  dsimp only
  rw [if_neg (by decide)]
  cases t.appendTree fresh <;> rfl

end Top

theorem key_top {T : ConfigTreeValue} {place : List Edge} {d : Option ConfigScalar}
    {m : Keyed String ConfigTreeValue} (h : T.at_ place = some (map d m)) (S : List Context)
    (s : String) :
    key ⟨T, ⟨some place, true, false⟩ :: S⟩ s = .ok (match m.find s with
      | none => ⟨replaceAt (map d (m.insert s fresh)) place T,
          ⟨some (place ++ [.key s]), false, false⟩ :: ⟨some place, true, false⟩ :: S⟩
      | some _ => ⟨T, ⟨none, false, false⟩ :: ⟨some place, true, false⟩ :: S⟩) := by
  rw [key]
  dsimp only [context, bind, Except.bind]
  rw [node_top h]
  dsimp only
  cases m.find s <;> rfl

/-! Maps and arrays are opened by a call; what is in them is read in the same way in a map and in an
array. -/

def openEvent : Bool → JsonEvent
  | true => .startObject
  | false => .startArray

/-- The node of a map, or of an array, that is open. -/
def openNode : Bool → ConfigTreeValue
  | true => fresh.toMap
  | false => fresh

def openContext (b : Bool) (place : List Edge) : Context := ⟨some place, b, !b⟩

theorem handle_open_top (b : Bool) {T : ConfigTreeValue} {place : List Edge}
    (h : T.at_ place = some fresh) (S : List Context) :
    handle ⟨T, ⟨some place, false, false⟩ :: S⟩ (openEvent b) =
      .ok ⟨replaceAt (openNode b) place T, openContext b place :: S⟩ := by
  cases b with
  | true => exact startObject_top h false S
  | false =>
    rw [show openNode false = fresh from rfl, replaceAt_at place h]
    exact startArray_top h false S rfl

theorem handle_open_item (b : Bool) {T t : ConfigTreeValue} {place : List Edge}
    (h : T.at_ place = some t) (m : Bool) (S : List Context) :
    handle ⟨T, ⟨some place, m, true⟩ :: S⟩ (openEvent b) =
      (t.appendTree (openNode b)).map fun r => ⟨replaceAt r.1 place T,
        openContext b (place ++ [.index r.2]) :: ⟨some place, m, true⟩ :: S⟩ := by
  cases b with
  | true => exact startObject_item h m S
  | false => exact startArray_item h m S

/-- Whether a node is put at the end of an array does not depend on the node. -/
theorem appendTree_cases (acc : ConfigTreeValue) :
    (∃ e, ∀ c, acc.appendTree c = .error e) ∨
      ∃ (d : Option ConfigScalar) (l : List ConfigTreeValue), ∀ c,
        acc.appendTree c = .ok (trees d (Items.ofList (l ++ [c])), l.length) := by
  cases acc with
  | unset d => exact .inr ⟨d, [], fun _ => rfl⟩
  | trees d items =>
    refine .inr ⟨d, items.toList, fun c => ?_⟩
    rw [Items.length_toList]
    rfl
  | _ => exact .inl ⟨_, fun _ => rfl⟩

theorem child_last (d : Option ConfigScalar) (l : List ConfigTreeValue) (c : ConfigTreeValue) :
    (trees d (Items.ofList (l ++ [c]))).child (.index l.length) = some c :=
  (Items.find_ofList _ _).trans List.getElem?_concat_length

theorem setChild_last (d : Option ConfigScalar) (l : List ConfigTreeValue)
    (c c' : ConfigTreeValue) : (trees d (Items.ofList (l ++ [c]))).setChild (.index l.length) c' =
      trees d (Items.ofList (l ++ [c'])) := by
  refine congrArg (trees d) ((Items.set_ofList _ _ _).trans ?_)
  rw [List.set_append_right _ _ (Nat.le_refl _), Nat.sub_self]
  rfl

/-- The calls of a tree make the node that is read, also at the end of an array. -/
structure RunsAs (t : ConfigTreeValue) : Prop where
  top : ∀ {T place}, T.at_ place = some fresh → ∀ S,
    run ⟨T, ⟨some place, false, false⟩ :: S⟩ (writeTree t) =
      (read t).map fun c => ⟨replaceAt c place T, S⟩
  item : t.isSetOrDefault = true → ∀ {T place acc}, T.at_ place = some acc → ∀ m S,
    run ⟨T, ⟨some place, m, true⟩ :: S⟩ (writeTree t) =
      (addItem acc t (read t)).map fun c => ⟨replaceAt c place T, ⟨some place, m, true⟩ :: S⟩

theorem runs_open {t : ConfigTreeValue} (b : Bool) {inner : List JsonEvent}
    (hwrite : writeTree t = openEvent b :: inner)
    (hadd : ∀ acc, addItem acc t (read t) = do
      let _ ← acc.appendTree fresh
      let c ← read t
      let (t, _) ← acc.appendTree c
      return t)
    (hinner : ∀ {T place}, T.at_ place = some (openNode b) → ∀ S,
      run ⟨T, openContext b place :: S⟩ inner =
        (read t).map fun c => ⟨replaceAt c place T, S⟩) : RunsAs t := by
  constructor
  · intro T place h S
    rw [hwrite, run_cons, handle_open_top b h]
    refine (hinner (at_replaceAt _ place h) S).trans ?_
    refine congrArg (Except.map · (read t)) (funext fun c => ?_)
    rw [replaceAt_replaceAt _ c place h]
  · intro _ T place acc h m S
    rw [hwrite, run_cons, handle_open_item b h, hadd]
    rcases appendTree_cases acc with ⟨e, he⟩ | ⟨d, l, hok⟩
    · rw [he, he]
      rfl
    · rw [hok, hok]
      refine (hinner (at_child (child_last d l _) h) _).trans ?_
      cases hread : read t with
      | error e => rfl
      | ok c =>
        have hreplace := replaceAt_child (child_last d l (openNode b)) c place h
        rw [setChild_last] at hreplace
        refine (congrArg (fun T => Except.ok (Parser.mk T _)) hreplace).trans ?_
        show _ = Except.map _ (acc.appendTree c >>= fun r => pure r.1)
        rw [hok]
        rfl

theorem sum_eq_zero {α : Type} {g : α → Nat} {l : List α} (h : (l.map g).sum = 0) :
    ∀ x ∈ l, g x = 0 := fun x hx =>
  List.sum_eq_zero_iff_forall_eq_nat.mp h (g x) (List.mem_map_of_mem hx)

theorem runs_scalar {t : ConfigTreeValue} {v : ConfigScalar} (hwrite : writeTree t = [v.event])
    (hread : read t = .ok (scalar none v.reported))
    (hadd : ∀ acc, addItem acc t (read t) = acc.appendValue v.reported) : RunsAs t := by
  constructor
  · intro T place h S
    rw [hwrite, hread, run_event]
    exact setValue_top h false S _
  · intro _ T place acc h m S
    rw [hwrite, hadd, run_event]
    exact setValue_item h m S _

/-- What is in an array, and its end. -/
theorem run_items {α : Type} {f : α → List JsonEvent}
    {g : ConfigTreeValue → α → Except ParserError ConfigTreeValue} (l : List α)
    (h : ∀ x ∈ l, ∀ {T place acc}, T.at_ place = some acc → ∀ m S,
      run ⟨T, ⟨some place, m, true⟩ :: S⟩ (f x) =
        (g acc x).map fun c => ⟨replaceAt c place T, ⟨some place, m, true⟩ :: S⟩)
    {T : ConfigTreeValue} {place : List Edge} (hat : T.at_ place = some fresh) (S : List Context) :
    run ⟨T, openContext false place :: S⟩ (l.flatMap f ++ [.endArray]) =
      (l.foldlM g fresh).map fun c => ⟨replaceAt c place T, S⟩ := by
  have hrun := run_flatMap (R := fun c => ⟨replaceAt c place T, openContext false place :: S⟩)
    l (g := g) (f := f) (fun x hx acc => by
      refine (h x hx (at_replaceAt acc place hat) false S).trans ?_
      refine congrArg (Except.map · (g acc x)) (funext fun c => ?_)
      rw [replaceAt_replaceAt acc c place hat]
      rfl) fresh
  rw [replaceAt_at place hat] at hrun
  rw [run_append, hrun]
  cases l.foldlM g fresh <;> rfl

/-- A node that is freed is used by all calls but a null. -/
theorem run_freed (T t : ConfigTreeValue) (S : List Context) :
    run ⟨T, ⟨none, false, false⟩ :: S⟩ (writeTree t) =
      if t.isSetOrDefault then .error .freed else .ok ⟨T, S⟩ := by
  cases t with
  | unset d =>
    cases d with
    | none => rfl
    | some v => cases v <;> rfl
  | scalar d v => cases v <;> rfl
  | _ => rfl

/-- One key of a map that is open, with its entry. -/
theorem run_key {t : ConfigTreeValue} (ht : RunsAs t) (s : String)
    (m : Keyed String ConfigTreeValue) {T c : ConfigTreeValue} {place : List Edge}
    (hat : T.at_ place = some c) (S : List Context) :
    run ⟨replaceAt (map none m) place T, openContext true place :: S⟩ (.key s :: writeTree t) =
      (addKey m s t (read t)).map fun m =>
        ⟨replaceAt (map none m) place T, openContext true place :: S⟩ := by
  have hmap := at_replaceAt (map none m) place hat
  rw [run_cons]
  show (key _ s >>= _) = _
  rw [openContext, Bool.not_true, key_top hmap, addKey]
  cases hfind : m.find s with
  | some c' =>
    refine (run_freed _ _ _).trans ?_
    cases t.isSetOrDefault <;> rfl
  | none =>
    have hchild : (map none (m.insert s fresh)).child (.key s) = some fresh :=
      Keyed.find_insert_self s fresh m
    have hrun := ht.top (at_child hchild hat) (openContext true place :: S)
    dsimp only [bind, Except.bind]
    rw [replaceAt_replaceAt _ _ place hat]
    refine hrun.trans ?_
    cases read t with
    | error e => rfl
    | ok c' =>
      have hreplace := replaceAt_child hchild c' place hat
      have hset : (map none (m.insert s fresh)).setChild (.key s) c' = map none (m.insert s c') :=
        congrArg (map none) (Keyed.insert_insert s fresh c' m)
      rw [hset] at hreplace
      exact congrArg (fun T => Except.ok (Parser.mk T _)) hreplace

/-- **The calls of a tree** without nulls in arrays, by induction on the tree. -/
theorem run_writeTree (t : ConfigTreeValue) : t.nullItems = 0 → RunsAs t := by
  induction t with
  | unset d =>
    intro _
    cases d with
    | none =>
      refine ⟨fun {T place} h S => ?_, nofun⟩
      show Except.ok _ = Except.ok (Parser.mk (replaceAt fresh place T) S)
      rw [replaceAt_at place h]
    | some v => exact runs_scalar rfl rfl fun _ => rfl
  | scalar d v => exact fun _ => runs_scalar rfl rfl fun _ => rfl
  | array d a =>
    intro _
    refine runs_open false rfl (fun _ => rfl) fun h S => ?_
    rw [events_eq]
    refine run_items a.values (fun v _ T place acc h m S => ?_) h S
    rw [run_event]
    exact setValue_item h m S _
  | trees d items ih =>
    intro hnull
    obtain ⟨size, item⟩ := items
    rw [nullItems] at hnull
    refine runs_open false rfl (fun _ => rfl) fun h S => ?_
    refine run_items (List.finRange size) (fun i hi T place acc h m S => ?_) h S
    have hi := sum_eq_zero hnull i hi
    have hset : (item i).isSetOrDefault = true := by
      cases hset : (item i).isSetOrDefault with
      | true => rfl
      | false =>
        rw [hset] at hi
        cases hi
    exact (ih i (Nat.eq_zero_of_add_eq_zero_right hi)).item hset h m S
  | map d m ih =>
    intro hnull
    obtain ⟨keys, entry⟩ := m
    rw [nullItems] at hnull
    refine runs_open true rfl (fun _ => rfl) fun {T place} h S => ?_
    have hkey : ∀ k ∈ ordered keys, ∀ m : Keyed String ConfigTreeValue,
        run ⟨replaceAt (map none m) place T, openContext true place :: S⟩
            (.key (cStr k.1) :: writeTree (entry k)) =
          (addKey m (cStr k.1) (entry k) (read (entry k))).map fun m =>
            ⟨replaceAt (map none m) place T, openContext true place :: S⟩ := by
      intro k hk m
      have hk : nullItems (entry k) = 0 := sum_eq_zero hnull k hk
      exact run_key (ih k hk) (cStr k.1) m h S
    have hrun := run_flatMap (ordered keys) hkey .empty
    rw [show map none .empty = openNode true from rfl, replaceAt_at place h] at hrun
    refine (run_append _ _ _).trans ?_
    rw [hrun, ConfigTreeValue.read]
    cases (ordered keys).foldlM (fun m k => addKey m (cStr k.1) (entry k) (read (entry k)))
      .empty <;> rfl

end Parser

end Hatn.Base
