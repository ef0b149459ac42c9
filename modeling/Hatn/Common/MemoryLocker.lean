import Mathlib.Algebra.Group.Nat.Defs
import Mathlib.Data.List.Nodup
import Mathlib.Logic.Function.Basic
import Mathlib.Tactic.Common

/-!
# Locked memory

`MemoryLocker` counts for each page the requests to lock it, so that a page stays locked in the
system while a region that touches it is.  Where the system fails to lock a page, the pages before
it are counted back, and the failed page itself is not.  A region that is empty is skipped when it
is locked and not when it is unlocked (`counts_pages_iff`).
-/

namespace Hatn.Common

/-- The size of pages and one above the largest counter of the system. -/
structure PageSystem where
  pageSize : Nat
  counterLimit : Nat
  pageSize_pos : 0 < pageSize
  one_lt_counterLimit : 1 < counterLimit

/-- A region `[p; p + n)`, with the address that ends it. -/
structure MemoryRegion where
  p : Nat
  n : Nat
  end_lt : p + n < 2 ^ 64
  deriving DecidableEq

/-- The pages that the system fails to lock and to unlock in a call. -/
structure PageFailures where
  lock : Nat → Bool
  unlock : Nat → Bool

/-- The counters of `MemoryLocker` and the pages that are locked in the system. -/
structure MemoryLocker (y : PageSystem) where
  lockedCounter : Nat → Nat
  locked : Nat → Bool
  counter_lt : ∀ page, lockedCounter page < y.counterLimit

namespace PageSystem

variable (y : PageSystem)

theorem counterLimit_pos : 0 < y.counterLimit := Nat.zero_lt_of_lt y.one_lt_counterLimit

/-- A counter after `++` -/
def increment (count : Nat) : Nat := (count + 1) % y.counterLimit

/-- A counter after `--` -/
def decrement (count : Nat) : Nat := (count + (y.counterLimit - 1)) % y.counterLimit

theorem increment_lt (count : Nat) : y.increment count < y.counterLimit :=
  Nat.mod_lt _ y.counterLimit_pos

theorem decrement_lt (count : Nat) : y.decrement count < y.counterLimit :=
  Nat.mod_lt _ y.counterLimit_pos

theorem increment_eq_iff {count : Nat} (h : count < y.counterLimit) :
    y.increment count = count + 1 ↔ count + 1 < y.counterLimit := by
  obtain hlt | heq := Nat.lt_or_eq_of_le (Nat.succ_le_of_lt h)
  · exact iff_of_true (Nat.mod_eq_of_lt hlt) hlt
  · have heq : count + 1 = y.counterLimit := heq
    rw [increment, heq, Nat.mod_self]
    exact iff_of_false (Nat.ne_of_lt y.counterLimit_pos) (Nat.lt_irrefl _)

theorem decrement_succ {count : Nat} (h : count < y.counterLimit) :
    y.decrement (count + 1) = count := by
  have hlimit := y.counterLimit_pos
  have heq : count + 1 + (y.counterLimit - 1) = count + y.counterLimit := by omega
  rw [decrement, heq, Nat.add_mod_right, Nat.mod_eq_of_lt h]

theorem decrement_ne {count : Nat} (h : count < y.counterLimit) : y.decrement count ≠ count := by
  have hlimit := y.one_lt_counterLimit
  cases count with
  | zero =>
    have hlt : 0 + (y.counterLimit - 1) < y.counterLimit := by omega
    rw [decrement, Nat.mod_eq_of_lt hlt]
    omega
  | succ count =>
    rw [y.decrement_succ (Nat.lt_of_succ_lt h)]
    omega

/-- `addr2pagenum` -/
def addr2pagenum (p : Nat) : Nat := p / y.pageSize

/-- The page of the first byte of a region. -/
def firstPage (r : MemoryRegion) : Nat := y.addr2pagenum r.p

/-- The page of `p + n - 1` -/
def lastPage (r : MemoryRegion) : Nat := y.addr2pagenum ((r.p + r.n + (2 ^ 64 - 1)) % 2 ^ 64)

/-- The pages of a loop from `first` to `last`. -/
def pages (first last : Nat) : List Nat := List.range' first (last + 1 - first)

/-- A byte of the region is in the page. -/
def Touches (r : MemoryRegion) (page : Nat) : Prop :=
  ∃ address, r.p ≤ address ∧ address < r.p + r.n ∧ y.addr2pagenum address = page

variable {y} {r : MemoryRegion} {page : Nat}

theorem mem_pages {first last : Nat} : page ∈ pages first last ↔ first ≤ page ∧ page ≤ last := by
  rw [pages, List.mem_range'_1]
  omega

theorem nodup_pages (first last : Nat) : (pages first last).Nodup := List.nodup_range'

/-- The pages that a region touches are those from its first one to its last one. -/
theorem touches_iff : y.Touches r page ↔
    r.n ≠ 0 ∧ page ∈ pages (y.firstPage r) (y.lastPage r) := by
  have hend := r.end_lt
  rw [mem_pages]
  constructor
  · rintro ⟨address, hle, hlt, rfl⟩
    have hn : r.n ≠ 0 := by omega
    have hlast : (r.p + r.n + (2 ^ 64 - 1)) % 2 ^ 64 = r.p + r.n - 1 := by omega
    refine ⟨hn, Nat.div_le_div_right hle, ?_⟩
    rw [lastPage, hlast]
    exact Nat.div_le_div_right (by omega)
  · rintro ⟨hn, hfirst, hlast⟩
    have hmod : (r.p + r.n + (2 ^ 64 - 1)) % 2 ^ 64 = r.p + r.n - 1 := by omega
    rw [lastPage, hmod] at hlast
    obtain heq | hlt := Nat.eq_or_lt_of_le hfirst
    · exact ⟨r.p, Nat.le_refl _, by omega, heq⟩
    · -- the page begins behind the begin of the region
      have hbegin : r.p < page * y.pageSize := Nat.lt_mul_of_div_lt hlt y.pageSize_pos
      have hle : page * y.pageSize ≤ r.p + r.n - 1 :=
        (Nat.le_div_iff_mul_le y.pageSize_pos).mp hlast
      exact ⟨page * y.pageSize, Nat.le_of_lt hbegin, by omega, Nat.mul_div_cancel _ y.pageSize_pos⟩

instance (r : MemoryRegion) (page : Nat) : Decidable (y.Touches r page) :=
  decidable_of_iff _ touches_iff.symm

theorem not_touches_of_empty (h : r.n = 0) : ¬ y.Touches r page :=
  fun htouches => (touches_iff.mp htouches).1 h

end PageSystem

namespace MemoryLocker

variable {y : PageSystem}

/-- The counter of a page is set. -/
def setCounter (l : MemoryLocker y) (page count : Nat) (h : count < y.counterLimit) :
    MemoryLocker y where
  lockedCounter := Function.update l.lockedCounter page count
  locked := l.locked
  counter_lt other := by
    rw [Function.update_apply]
    split
    · exact h
    · exact l.counter_lt other

/-- `doLockRegion` of a page, with whether it is locked. -/
def doLockRegion (f : PageFailures) (page : Nat) (l : MemoryLocker y) : MemoryLocker y × Bool :=
  if f.lock page then (l, false)
  else ({ l with locked := Function.update l.locked page true }, true)

/-- `doUnlockRegion` of a page: a failure leaves it locked and is only written to the log. -/
def doUnlockRegion (f : PageFailures) (page : Nat) (l : MemoryLocker y) : MemoryLocker y :=
  if f.unlock page then l else { l with locked := Function.update l.locked page false }

/-- The counter of a page goes up, and from zero the page is locked. -/
def lockPage (f : PageFailures) (l : MemoryLocker y) (page : Nat) : MemoryLocker y × Bool :=
  let counted := l.setCounter page (y.increment (l.lockedCounter page)) (y.increment_lt _)
  if l.lockedCounter page = 0 then counted.doLockRegion f page else (counted, true)

/-- The pages are locked one after another, up to one that fails. -/
def lockPages (f : PageFailures) : List Nat → MemoryLocker y → MemoryLocker y × Option Nat
  | [], l => (l, none)
  | page :: rest, l =>
    match l.lockPage f page with
    | (l, true) => lockPages f rest l
    | (l, false) => (l, some page)

/-- The counter of a page goes down, and at zero the page is unlocked. -/
def unlockPage (f : PageFailures) (l : MemoryLocker y) (page : Nat) : MemoryLocker y :=
  let counted := l.setCounter page (y.decrement (l.lockedCounter page)) (y.decrement_lt _)
  if y.decrement (l.lockedCounter page) = 0 then counted.doUnlockRegion f page else counted

/-- The pages are unlocked one after another. -/
def unlockPages (f : PageFailures) (pages : List Nat) (l : MemoryLocker y) : MemoryLocker y :=
  pages.foldl (unlockPage f) l

/-- `lockRegion`, with whether it returned or threw.  It does neither when it counts back to the
page 0: no number of a page is before that. -/
def lockRegion (f : PageFailures) (r : MemoryRegion) (l : MemoryLocker y) :
    Option (MemoryLocker y × Bool) :=
  if r.n = 0 then some (l, true)
  else
    match lockPages f (PageSystem.pages (y.firstPage r) (y.lastPage r)) l with
    | (done, none) => some (done, true)
    | (done, some page) =>
      if y.firstPage r = 0 then none
      else some
        (unlockPages f (List.range' (y.firstPage r) (page - y.firstPage r)).reverse done, false)

/-- `unlockRegion`, which does not return when its last page has the largest number. -/
def unlockRegion (f : PageFailures) (r : MemoryRegion) (l : MemoryLocker y) :
    Option (MemoryLocker y) :=
  if y.lastPage r = 2 ^ 64 - 1 then none
  else some (unlockPages f (PageSystem.pages (y.firstPage r) (y.lastPage r)) l)

/-! ### Loops over pages -/

section
variable {f : PageFailures} {pages : List Nat} {l done : MemoryLocker y} {page other : Nat}

@[simp] theorem setCounter_locked (l : MemoryLocker y) (page count : Nat)
    (h : count < y.counterLimit) : (l.setCounter page count h).locked = l.locked := rfl

theorem setCounter_counter (l : MemoryLocker y) (page count other : Nat)
    (h : count < y.counterLimit) : (l.setCounter page count h).lockedCounter other =
      if other = page then count else l.lockedCounter other :=
  Function.update_apply _ _ _ _

theorem lockPage_counter (f : PageFailures) (l : MemoryLocker y) (page other : Nat) :
    (l.lockPage f page).1.lockedCounter other =
      if other = page then y.increment (l.lockedCounter page) else l.lockedCounter other := by
  rw [← setCounter_counter l page _ other (y.increment_lt _)]
  simp only [lockPage, doLockRegion]
  repeat' split
  all_goals rfl

theorem lockPage_eq_false : (l.lockPage f page).2 = false ↔
    l.lockedCounter page = 0 ∧ f.lock page = true := by
  simp only [lockPage, doLockRegion]
  split
  next hzero => cases hf : f.lock page <;> simp [hzero]
  next hzero => simp [hzero]

theorem lockPage_locked (h : (l.lockPage f page).2 = true) (other : Nat) :
    (l.lockPage f page).1.locked other =
      if other = page ∧ l.lockedCounter page = 0 then true else l.locked other := by
  simp only [lockPage, doLockRegion] at h ⊢
  split
  next hzero =>
    rw [if_pos hzero] at h
    split
    next hf =>
      rw [if_pos hf] at h
      cases h
    next hf => simp [hzero, Function.update_apply]
  next hzero => simp [hzero]

theorem unlockPage_counter (f : PageFailures) (l : MemoryLocker y) (page other : Nat) :
    (l.unlockPage f page).lockedCounter other =
      if other = page then y.decrement (l.lockedCounter page) else l.lockedCounter other := by
  rw [← setCounter_counter l page _ other (y.decrement_lt _)]
  simp only [unlockPage, doUnlockRegion]
  repeat' split
  all_goals rfl

theorem unlockPage_locked (f : PageFailures) (l : MemoryLocker y) (page other : Nat) :
    (l.unlockPage f page).locked other =
      if other = page ∧ y.decrement (l.lockedCounter page) = 0 ∧ f.unlock page = false
      then false else l.locked other := by
  simp only [unlockPage, doUnlockRegion]
  split
  next hzero =>
    split
    next hf => simp [hf]
    next hf => simp [hf, hzero, Function.update_apply]
  next hzero => simp [hzero]

theorem unlockPages_counter (hnodup : pages.Nodup) :
    (unlockPages f pages l).lockedCounter other =
      if other ∈ pages then y.decrement (l.lockedCounter other) else l.lockedCounter other := by
  induction pages generalizing l with
  | nil => rfl
  | cons page rest ih =>
    rw [List.nodup_cons] at hnodup
    rw [unlockPages, List.foldl_cons]
    refine (ih hnodup.2).trans ?_
    rw [unlockPage_counter]
    by_cases heq : other = page
    · subst heq
      rw [if_neg hnodup.1, if_pos rfl, if_pos (.head _)]
    · simp only [heq, List.mem_cons, false_or, if_false]

theorem unlockPages_locked (hnodup : pages.Nodup) :
    (unlockPages f pages l).locked other =
      if other ∈ pages ∧ y.decrement (l.lockedCounter other) = 0 ∧ f.unlock other = false
      then false else l.locked other := by
  induction pages generalizing l with
  | nil => simp [unlockPages]
  | cons page rest ih =>
    rw [List.nodup_cons] at hnodup
    rw [unlockPages, List.foldl_cons]
    refine (ih hnodup.2).trans ?_
    rw [unlockPage_counter, unlockPage_locked]
    by_cases heq : other = page
    · subst heq
      simp [hnodup.1]
    · simp [heq]

/-- A page that fails to be locked had no counter, and has one now. -/
theorem lockPages_failed (hnodup : pages.Nodup) (h : lockPages f pages l = (done, some page)) :
    page ∈ pages ∧ f.lock page = true ∧ l.lockedCounter page = 0 ∧
      done.lockedCounter page = 1 := by
  induction pages generalizing l with
  | nil => cases h
  | cons first rest ih =>
    rw [List.nodup_cons] at hnodup
    have hcounter := lockPage_counter f l first
    rw [lockPages] at h
    split at h
    next counted heq =>
      rw [heq] at hcounter
      obtain ⟨hmem, hf, hzero, hone⟩ := ih hnodup.2 h
      have hne : page ≠ first := fun heq => hnodup.1 (heq ▸ hmem)
      rw [hcounter, if_neg hne] at hzero
      exact ⟨.tail _ hmem, hf, hzero, hone⟩
    next counted heq =>
      obtain ⟨rfl, rfl⟩ : counted = done ∧ first = page := by simpa using h
      obtain ⟨hzero, hf⟩ := lockPage_eq_false.mp (congrArg Prod.snd heq)
      rw [heq] at hcounter
      refine ⟨.head _, hf, hzero, ?_⟩
      rw [hcounter, if_pos rfl, hzero]
      exact Nat.mod_eq_of_lt y.one_lt_counterLimit

/-- All pages are counted, and those that had no counter are locked. -/
theorem lockPages_done (hnodup : pages.Nodup) (h : lockPages f pages l = (done, none)) :
    (∀ page ∈ pages, l.lockedCounter page = 0 → f.lock page = false) ∧
      (∀ page, done.lockedCounter page =
        if page ∈ pages then y.increment (l.lockedCounter page) else l.lockedCounter page) ∧
      ∀ page, done.locked page =
        if page ∈ pages ∧ l.lockedCounter page = 0 then true else l.locked page := by
  induction pages generalizing l with
  | nil =>
    cases h
    simp
  | cons first rest ih =>
    rw [List.nodup_cons] at hnodup
    have hcounter := lockPage_counter f l first
    rw [lockPages] at h
    split at h
    next counted heq =>
      have hok : (l.lockPage f first).2 = true := congrArg Prod.snd heq
      have hlocked := lockPage_locked hok
      have hfree : l.lockedCounter first = 0 → f.lock first = false := by
        intro hzero
        by_contra hf
        rw [lockPage_eq_false.mpr ⟨hzero, by simpa using hf⟩] at hok
        cases hok
      rw [heq] at hcounter hlocked
      obtain ⟨hfree', hcounter', hlocked'⟩ := ih hnodup.2 h
      refine ⟨?_, fun page => ?_, fun page => ?_⟩
      · rintro page (_ | ⟨_, hmem⟩) hzero
        · exact hfree hzero
        · have hne : page ≠ first := fun heq => hnodup.1 (heq ▸ hmem)
          refine hfree' page hmem ?_
          rw [hcounter, if_neg hne, hzero]
      · rw [hcounter', hcounter]
        by_cases hpage : page = first
        · subst hpage
          simp [hnodup.1]
        · simp [hpage]
      · rw [hlocked', hlocked, hcounter]
        by_cases hpage : page = first
        · subst hpage
          simp [hnodup.1]
        · simp [hpage]
    next => cases h

end

end MemoryLocker

/-- A call of `MemoryLocker` with the failures of the system in it. -/
inductive MemoryCall where
  | lockRegion (r : MemoryRegion) (f : PageFailures)
  | unlockRegion (r : MemoryRegion) (f : PageFailures)

/-- The locker with the regions whose lock succeeded and that are not unlocked yet. -/
structure LockedMemory (y : PageSystem) where
  locker : MemoryLocker y
  regions : List MemoryRegion

namespace LockedMemory

variable {y : PageSystem}

/-- Nothing is locked. -/
def start (y : PageSystem) : LockedMemory y where
  locker := ⟨fun _ => 0, fun _ => false, fun _ => y.counterLimit_pos⟩
  regions := []

/-- One call, with whether it returned or threw. -/
def step (s : LockedMemory y) : MemoryCall → Option (LockedMemory y × Bool)
  | .lockRegion r f => (s.locker.lockRegion f r).map fun (l, returned) =>
    (⟨l, if returned then r :: s.regions else s.regions⟩, returned)
  | .unlockRegion r f => (s.locker.unlockRegion f r).map fun l => (⟨l, s.regions.erase r⟩, true)

/-- Regions are unlocked that are locked. -/
def Matched : LockedMemory y → List MemoryCall → Prop
  | _, [] => True
  | s, call :: rest =>
    (∀ r f, call = .unlockRegion r f → r ∈ s.regions) ∧
      ∀ t returned, s.step call = some (t, returned) → Matched t rest

/-- The counter of each page is the number of the regions that touch it, and it is locked in the
system when that is not zero. -/
structure Counted (s : LockedMemory y) : Prop where
  counter : ∀ page, s.locker.lockedCounter page = s.regions.countP (y.Touches · page)
  locked : ∀ page, s.locker.locked page = true ↔ 0 < s.locker.lockedCounter page

/-- A call keeps the count, and changes nothing when it throws. -/
def CallCounted (s : LockedMemory y) (call : MemoryCall) : Prop :=
  ∃ t returned, s.step call = some (t, returned) ∧ t.Counted ∧
    (returned = false → t.locker = s.locker)

/-- Every call keeps the count. -/
def AllCounted : LockedMemory y → List MemoryCall → Prop
  | _, [] => True
  | s, call :: rest =>
    s.CallCounted call ∧ ∀ t returned, s.step call = some (t, returned) → AllCounted t rest

/-- The calls that are counted: no page fails to be locked and no counter wraps; what is unlocked
is not an empty region inside a page or at the address 0, and no page fails to be unlocked. -/
def Proper (s : LockedMemory y) : MemoryCall → Prop
  | .lockRegion r f => ∀ page, y.Touches r page →
      s.locker.lockedCounter page + 1 < y.counterLimit ∧
        (s.locker.lockedCounter page = 0 → f.lock page = false)
  | .unlockRegion r f =>
    (r.n = 0 → r.p ≠ 0 ∧ r.p % y.pageSize = 0) ∧
      ∀ page, y.Touches r page → s.locker.lockedCounter page = 1 → f.unlock page = false

/-- Every call is such a call. -/
def AllProper : LockedMemory y → List MemoryCall → Prop
  | _, [] => True
  | s, call :: rest =>
    s.Proper call ∧ ∀ t returned, s.step call = some (t, returned) → AllProper t rest

/-! ### Single calls -/

section
variable {s : LockedMemory y} {r : MemoryRegion} {f : PageFailures} {done : MemoryLocker y}

theorem touches_iff_mem (hn : r.n ≠ 0) (page : Nat) :
    y.Touches r page ↔ page ∈ PageSystem.pages (y.firstPage r) (y.lastPage r) :=
  PageSystem.touches_iff.trans (and_iff_right hn)

theorem countP_cons (hs : s.Counted) (page : Nat) :
    (r :: s.regions).countP (y.Touches · page) =
      s.locker.lockedCounter page + if y.Touches r page then 1 else 0 := by
  rw [List.countP_cons, hs.counter]
  simp only [decide_eq_true_eq]

theorem countP_erase (hs : s.Counted) (hmem : r ∈ s.regions) (page : Nat) :
    s.locker.lockedCounter page =
      (s.regions.erase r).countP (y.Touches · page) + if y.Touches r page then 1 else 0 := by
  rw [hs.counter, (List.perm_cons_erase hmem).countP_eq, List.countP_cons]
  simp only [decide_eq_true_eq]

/-- Where no page fails to be locked, the pages are counted unless a counter wraps. -/
theorem counted_lock (hs : s.Counted) (hn : r.n ≠ 0)
    (h : MemoryLocker.lockPages f (PageSystem.pages (y.firstPage r) (y.lastPage r)) s.locker =
      (done, none)) :
    Counted ⟨done, r :: s.regions⟩ ↔
      ∀ page, y.Touches r page → s.locker.lockedCounter page + 1 < y.counterLimit := by
  obtain ⟨-, hcounter, hlocked⟩ := MemoryLocker.lockPages_done (PageSystem.nodup_pages _ _) h
  simp only [← touches_iff_mem hn] at hcounter hlocked
  constructor
  · intro ht page hpage
    have heq := ht.counter page
    rw [hcounter, if_pos hpage, countP_cons hs, if_pos hpage] at heq
    exact (y.increment_eq_iff (s.locker.counter_lt page)).mp heq
  · intro hlt
    have heq : ∀ page, done.lockedCounter page =
        s.locker.lockedCounter page + if y.Touches r page then 1 else 0 := by
      intro page
      rw [hcounter]
      split
      next hpage => exact (y.increment_eq_iff (s.locker.counter_lt page)).mpr (hlt page hpage)
      next => rfl
    refine ⟨fun page => (heq page).trans (countP_cons hs page).symm, fun page => ?_⟩
    rw [hlocked, heq]
    by_cases hpage : y.Touches r page
    · rw [if_pos hpage]
      by_cases hzero : s.locker.lockedCounter page = 0
      · simp [hpage, hzero]
      · simp only [hzero, and_false, if_false, hs.locked]
        omega
    · simp only [hpage, false_and, if_false, hs.locked, Nat.add_zero]

theorem callCounted_of_step {call : MemoryCall} {t : LockedMemory y}
    (h : s.step call = some (t, true)) : s.CallCounted call ↔ t.Counted := by
  constructor
  · rintro ⟨t', returned, ht, hcounted, -⟩
    cases h.symm.trans ht
    exact hcounted
  · exact fun hcounted => ⟨t, true, h, hcounted, nofun⟩

/-- A call that throws leaves a counter of the page that failed. -/
theorem not_callCounted_of_failed (page : Nat) (hn : r.n ≠ 0)
    (h : MemoryLocker.lockPages f (PageSystem.pages (y.firstPage r) (y.lastPage r)) s.locker =
      (done, some page)) : ¬ s.CallCounted (.lockRegion r f) := by
  obtain ⟨-, -, hzero, hone⟩ := MemoryLocker.lockPages_failed (PageSystem.nodup_pages _ _) h
  rintro ⟨t, returned, hstep, -, hkept⟩
  by_cases hfirst : y.firstPage r = 0
  · have hregion : s.locker.lockRegion f r = none := by
      rw [MemoryLocker.lockRegion, if_neg hn, h]
      exact if_pos hfirst
    rw [step, hregion] at hstep
    cases hstep
  · have hmem : page ∉ (List.range' (y.firstPage r) (page - y.firstPage r)).reverse := by
      rw [List.mem_reverse, List.mem_range'_1]
      omega
    have hregion : s.locker.lockRegion f r = some (MemoryLocker.unlockPages f
        (List.range' (y.firstPage r) (page - y.firstPage r)).reverse done, false) := by
      rw [MemoryLocker.lockRegion, if_neg hn, h]
      exact if_neg hfirst
    rw [step, hregion] at hstep
    cases hstep
    have hnodup : (List.range' (y.firstPage r) (page - y.firstPage r)).reverse.Nodup :=
      List.nodup_reverse.mpr List.nodup_range'
    have hkept : MemoryLocker.unlockPages f _ done = s.locker := hkept rfl
    have hcounter := congrArg (fun l => l.lockedCounter page) hkept
    simp only [MemoryLocker.unlockPages_counter hnodup, if_neg hmem, hone, hzero] at hcounter
    cases hcounter

theorem callCounted_lockRegion (hs : s.Counted) :
    s.CallCounted (.lockRegion r f) ↔ s.Proper (.lockRegion r f) := by
  by_cases hn : r.n = 0
  · refine iff_of_true ⟨⟨s.locker, r :: s.regions⟩, true, ?_, ⟨fun page => ?_, hs.locked⟩, nofun⟩
      fun page hpage => absurd hpage (PageSystem.not_touches_of_empty hn)
    · rw [step, MemoryLocker.lockRegion, if_pos hn]
      rfl
    · rw [countP_cons hs, if_neg (PageSystem.not_touches_of_empty hn), Nat.add_zero]
  · cases hpages : MemoryLocker.lockPages f
      (PageSystem.pages (y.firstPage r) (y.lastPage r)) s.locker with
    | mk done failed =>
      cases failed with
      | none =>
        have hstep : s.step (.lockRegion r f) = some (⟨done, r :: s.regions⟩, true) := by
          rw [step, MemoryLocker.lockRegion, if_neg hn, hpages]
          rfl
        obtain ⟨hfree, -, -⟩ :=
          MemoryLocker.lockPages_done (PageSystem.nodup_pages _ _) hpages
        rw [callCounted_of_step hstep, counted_lock hs hn hpages]
        constructor
        · exact fun h page hpage =>
            ⟨h page hpage, hfree page ((touches_iff_mem hn page).mp hpage)⟩
        · exact fun h page hpage => (h page hpage).1
      | some page =>
        obtain ⟨hmem, hf, hzero, -⟩ :=
          MemoryLocker.lockPages_failed (PageSystem.nodup_pages _ _) hpages
        refine iff_of_false (not_callCounted_of_failed _ hn hpages) fun h => ?_
        have hfree := (h page ((touches_iff_mem hn page).mpr hmem)).2 hzero
        rw [hf] at hfree
        cases hfree

/-- The pages of a region that is not empty are counted back, unless one fails to be unlocked. -/
theorem counted_unlock (hs : s.Counted) (hmem : r ∈ s.regions) (hn : r.n ≠ 0)
    (h : MemoryLocker.unlockPages f (PageSystem.pages (y.firstPage r) (y.lastPage r)) s.locker =
      done) :
    Counted ⟨done, s.regions.erase r⟩ ↔
      ∀ page, y.Touches r page → s.locker.lockedCounter page = 1 → f.unlock page = false := by
  have hcounter : ∀ page, done.lockedCounter page = if y.Touches r page
      then y.decrement (s.locker.lockedCounter page) else s.locker.lockedCounter page := by
    intro page
    rw [← h, MemoryLocker.unlockPages_counter (PageSystem.nodup_pages _ _)]
    exact if_congr (touches_iff_mem hn page).symm rfl rfl
  have hlocked : ∀ page, done.locked page = if y.Touches r page ∧
      y.decrement (s.locker.lockedCounter page) = 0 ∧ f.unlock page = false
      then false else s.locker.locked page := by
    intro page
    rw [← h, MemoryLocker.unlockPages_locked (PageSystem.nodup_pages _ _)]
    exact if_congr (and_congr_left' (touches_iff_mem hn page).symm) rfl rfl
  constructor
  · intro ht page hpage hone
    by_contra hf
    have hzero : y.decrement 1 = 0 := y.decrement_succ y.counterLimit_pos
    have hpositive := ht.locked page
    rw [hlocked, hcounter, if_pos hpage, hone, hzero, if_neg fun h => hf h.2.2] at hpositive
    have hlock := (hs.locked page).mpr (by rw [hone]; exact Nat.one_pos)
    exact absurd (hpositive.mp hlock) (Nat.lt_irrefl 0)
  · intro hfree
    refine ⟨fun page => ?_, fun page => ?_⟩
    · have hcount := countP_erase hs hmem page
      have hlt := s.locker.counter_lt page
      rw [hcounter]
      split
      next hpage =>
        rw [if_pos hpage] at hcount
        rw [hcount] at hlt ⊢
        exact y.decrement_succ (Nat.lt_of_succ_lt hlt)
      next hpage => rwa [if_neg hpage] at hcount
    · rw [hlocked, hcounter]
      by_cases hpage : y.Touches r page
      · have hcount := countP_erase hs hmem page
        have hlt := s.locker.counter_lt page
        have hlock := hs.locked page
        have hfree := hfree page hpage
        rw [if_pos hpage] at hcount
        rw [hcount] at hlt hlock hfree ⊢
        rw [y.decrement_succ (Nat.lt_of_succ_lt hlt), if_pos hpage]
        by_cases hzero : (s.regions.erase r).countP (y.Touches · page) = 0
        · rw [hzero] at hfree ⊢
          rw [if_pos ⟨hpage, rfl, hfree rfl⟩]
          exact iff_of_false Bool.false_ne_true (Nat.lt_irrefl 0)
        · rw [if_neg fun h => hzero h.2.1]
          exact hlock.trans (iff_of_true (Nat.succ_pos _) (Nat.pos_of_ne_zero hzero))
      · rw [if_neg fun h => hpage h.1, if_neg hpage]
        exact hs.locked page

/-- An empty region has no pages at the begin of a page, unless it is at the address 0. -/
theorem lastPage_lt_iff (hn : r.n = 0) :
    y.lastPage r < y.firstPage r ↔ r.p ≠ 0 ∧ r.p % y.pageSize = 0 := by
  have hend := r.end_lt
  have hmod := Nat.div_add_mod' r.p y.pageSize
  by_cases hp : r.p = 0
  · have hfirst : y.firstPage r = 0 := by
      rw [PageSystem.firstPage, PageSystem.addr2pagenum, hp, Nat.zero_div]
    rw [hfirst]
    exact iff_of_false (Nat.not_lt_zero _) fun h => h.1 hp
  · have hlast : (r.p + r.n + (2 ^ 64 - 1)) % 2 ^ 64 = r.p - 1 := by omega
    rw [PageSystem.lastPage, hlast, PageSystem.firstPage, PageSystem.addr2pagenum,
      PageSystem.addr2pagenum, Nat.div_lt_iff_lt_mul y.pageSize_pos]
    omega

theorem firstPage_lt (r : MemoryRegion) : y.firstPage r < 2 ^ 64 :=
  Nat.lt_of_le_of_lt (Nat.div_le_self _ _) (Nat.lt_of_add_right_lt r.end_lt)

theorem lastPage_lt (hn : r.n ≠ 0) : y.lastPage r < 2 ^ 64 - 1 := by
  have hend := r.end_lt
  have hlast : (r.p + r.n + (2 ^ 64 - 1)) % 2 ^ 64 = r.p + r.n - 1 := by omega
  rw [PageSystem.lastPage, hlast]
  exact Nat.lt_of_le_of_lt (Nat.div_le_self _ _) (by omega)

theorem unlockRegion_some (h : s.locker.unlockRegion f r = some done) :
    MemoryLocker.unlockPages f (PageSystem.pages (y.firstPage r) (y.lastPage r)) s.locker =
      done := by
  rw [MemoryLocker.unlockRegion] at h
  split at h
  next => cases h
  next => exact Option.some.inj h

theorem step_unlockRegion (h : y.lastPage r < 2 ^ 64 - 1) :
    s.step (.unlockRegion r f) = some (⟨MemoryLocker.unlockPages f
      (PageSystem.pages (y.firstPage r) (y.lastPage r)) s.locker, s.regions.erase r⟩, true) := by
  rw [step, MemoryLocker.unlockRegion, if_neg (Nat.ne_of_lt h)]
  rfl

/-- An empty region is unlocked as if it touched a page, unless it has no pages. -/
theorem callCounted_unlock_empty (hs : s.Counted) (hmem : r ∈ s.regions) (hn : r.n = 0) :
    s.CallCounted (.unlockRegion r f) ↔ y.lastPage r < y.firstPage r := by
  have hcount : ∀ page, s.locker.lockedCounter page =
      (s.regions.erase r).countP (y.Touches · page) := by
    intro page
    rw [countP_erase hs hmem, if_neg (PageSystem.not_touches_of_empty hn), Nat.add_zero]
  constructor
  · rintro ⟨t, returned, hstep, hcounted, -⟩
    by_contra hle
    cases hregion : s.locker.unlockRegion f r with
    | none =>
      rw [step, hregion] at hstep
      cases hstep
    | some done =>
      have hmem : y.firstPage r ∈ PageSystem.pages (y.firstPage r) (y.lastPage r) :=
        PageSystem.mem_pages.mpr ⟨Nat.le_refl _, Nat.le_of_not_lt hle⟩
      have hcounter : (MemoryLocker.unlockPages f (PageSystem.pages (y.firstPage r) (y.lastPage r))
          s.locker).lockedCounter (y.firstPage r) = _ :=
        MemoryLocker.unlockPages_counter (PageSystem.nodup_pages (y.firstPage r) (y.lastPage r))
      rw [if_pos hmem, unlockRegion_some hregion] at hcounter
      rw [step, hregion] at hstep
      cases hstep
      have hfirst := hcounted.counter (y.firstPage r)
      dsimp only at hfirst
      rw [hcounter, ← hcount] at hfirst
      exact y.decrement_ne (s.locker.counter_lt _) hfirst
  · intro hlt
    have hlast : y.lastPage r < 2 ^ 64 - 1 := by
      have hfirst := firstPage_lt (y := y) r
      omega
    have hpages : PageSystem.pages (y.firstPage r) (y.lastPage r) = [] :=
      List.eq_nil_iff_forall_not_mem.mpr fun page hpage => by
        obtain ⟨hle, hle'⟩ := PageSystem.mem_pages.mp hpage
        omega
    rw [callCounted_of_step (step_unlockRegion hlast), hpages]
    exact ⟨hcount, hs.locked⟩

theorem callCounted_unlockRegion (hs : s.Counted) (hmem : r ∈ s.regions) :
    s.CallCounted (.unlockRegion r f) ↔ s.Proper (.unlockRegion r f) := by
  by_cases hn : r.n = 0
  · rw [callCounted_unlock_empty hs hmem hn, lastPage_lt_iff hn]
    constructor
    · exact fun h => ⟨fun _ => h, fun page hpage =>
        absurd hpage (PageSystem.not_touches_of_empty hn)⟩
    · exact fun h => h.1 hn
  · rw [callCounted_of_step (step_unlockRegion (lastPage_lt hn)), counted_unlock hs hmem hn rfl]
    exact ⟨fun h => ⟨fun hn' => absurd hn' hn, h⟩, fun h => h.2⟩

theorem callCounted_iff {call : MemoryCall} (hs : s.Counted)
    (hmatched : ∀ r f, call = .unlockRegion r f → r ∈ s.regions) :
    s.CallCounted call ↔ s.Proper call := by
  cases call with
  | lockRegion r f => exact callCounted_lockRegion hs
  | unlockRegion r f => exact callCounted_unlockRegion hs (hmatched r f rfl)

end

/-! ### Runs -/

theorem allCounted_iff {s : LockedMemory y} {calls : List MemoryCall} (hs : s.Counted)
    (hmatched : s.Matched calls) : s.AllCounted calls ↔ s.AllProper calls := by
  induction calls generalizing s with
  | nil => exact Iff.rfl
  | cons call rest ih =>
    obtain ⟨hcall, hrest⟩ := hmatched
    rw [AllCounted, AllProper, callCounted_iff hs hcall]
    refine and_congr_right fun hproper => forall_congr' fun t => forall_congr' fun returned =>
      forall_congr' fun hstep => ?_
    obtain ⟨t', returned', hstep', hcounted, -⟩ := (callCounted_iff hs hcall).mpr hproper
    cases hstep.symm.trans hstep'
    exact ih hcounted (hrest t returned hstep)

theorem counted_start (y : PageSystem) : (start y).Counted where
  counter _ := rfl
  locked _ := iff_of_false Bool.false_ne_true (Nat.lt_irrefl 0)

/-- **The counters of `MemoryLocker`**: in a run the regions that touch a page are counted and it
is locked while there are some, and a call that throws changes nothing, if and only if no call
throws, no counter wraps, no page fails to be unlocked, and what is unlocked is not an empty region
inside a page or at the address 0. -/
theorem counts_pages_iff (y : PageSystem) (calls : List MemoryCall)
    (hmatched : (start y).Matched calls) :
    (start y).AllCounted calls ↔ (start y).AllProper calls :=
  allCounted_iff (counted_start y) hmatched

/-- Pages of 4096 bytes, with counters of 64 bits. -/
def smallPages : PageSystem := ⟨4096, 2 ^ 64, by decide, by decide⟩

/-- The last byte of a page and the first one of the next page. -/
def twoBytes : MemoryRegion := ⟨8191, 2, by decide⟩

/-- The system fails in nothing. -/
def noFailures : PageFailures := ⟨fun _ => false, fun _ => false⟩

theorem counts_pages_two_bytes : (start smallPages).AllCounted
    [.lockRegion twoBytes noFailures, .unlockRegion twoBytes noFailures] := by
  have hregions : ((start smallPages).step (.lockRegion twoBytes noFailures)).map
      (fun x => x.1.regions) = some [twoBytes] := rfl
  have hmatched : (start smallPages).Matched
      [.lockRegion twoBytes noFailures, .unlockRegion twoBytes noFailures] := by
    refine ⟨nofun, fun t returned hstep => ⟨?_, fun _ _ _ => trivial⟩⟩
    rintro r f hcall
    cases hcall
    rw [hstep] at hregions
    have ht : t.regions = [twoBytes] := Option.some.inj hregions
    rw [ht]
    exact .head _
  refine (counts_pages_iff smallPages _ hmatched).mpr ⟨fun page _ => ?_, fun t returned _ => ?_⟩
  · exact ⟨show 0 + 1 < 2 ^ 64 by decide, fun _ => rfl⟩
  · exact ⟨⟨fun h => absurd h (by decide), fun _ _ _ => rfl⟩, fun _ _ _ => trivial⟩

/-- A page that fails to be locked is counted. -/
theorem failed_page_counted : (start smallPages).Matched
      [.lockRegion twoBytes ⟨fun page => page == 2, fun _ => false⟩] ∧
    ¬ (start smallPages).AllCounted
      [.lockRegion twoBytes ⟨fun page => page == 2, fun _ => false⟩] := by
  refine ⟨⟨nofun, fun _ _ _ => trivial⟩, fun h => ?_⟩
  exact not_callCounted_of_failed 2 (by decide) rfl h.1

end LockedMemory

end Hatn.Common
