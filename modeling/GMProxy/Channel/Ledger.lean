import GMProxy.Library.Custody
import Mathlib.Data.Finset.Basic

/-!
# The ledger of channels

What the channel manager is for, without its locks and maps: channel records and child processes in
the hands of the creating threads, the table and the deletion worker. Each record is in one place,
and a child that has not been reaped stands behind each pid that is held.
-/

namespace GMProxy.TdChannel

open Custody

/-- Who can hold a channel: the table under a name, a thread inside `createChannel`, or the deletion
worker. -/
inductive Place where
  | entry (key : String)
  | thread (t : Nat)
  | worker
deriving DecidableEq, Repr

/-- What a place holds: a forked pid, the record of a channel, or a record whose child has been
waited for. -/
inductive Holding where
  | nothing
  | forked (name : String) (pid : Int)
  | channel (name : String) (p : Nat)
  | spent (p : Nat)
deriving DecidableEq, Repr

def Holding.ptr : Holding → Option Nat
  | channel _ p => some p
  | spent p => some p
  | _ => none

def Holding.name : Holding → Option String
  | forked name _ => some name
  | channel name _ => some name
  | _ => none

def Holding.pid (record : Nat → Option Int) : Holding → Option Int
  | forked _ pid => some pid
  | channel _ p => record p
  | _ => none

structure ChildView where
  chan : String
  reaped : Bool
deriving DecidableEq, Repr

/-- `record` gives the pid in a record that is allocated. -/
@[ext] structure Ledger where
  holding : Place → Holding
  record : Nat → Option Int
  next : Nat
  child : Int → Option ChildView
  live : Finset String

namespace Ledger

/-- The pid a place is responsible for. -/
def pidAt (l : Ledger) (a : Place) : Option Int := (l.holding a).pid l.record

def put (l : Ledger) (a : Place) (h : Holding) : Ledger :=
  { l with holding := Function.update l.holding a h }

/-- One step of the life of a channel. -/
inductive Step (l : Ledger) : Ledger → Prop
  | stutter : Step l l
  | forkFailed (t : Nat) (name : String) (h : l.holding (.thread t) = .nothing) :
      Step l (l.put (.thread t) (.forked name (-1)))
  | fork (t : Nat) (name : String) (pid : Int) (h : l.holding (.thread t) = .nothing)
      (hpid : 0 < pid) (hfree : ∀ c, l.child pid = some c → c.reaped = true) :
      Step l { l.put (.thread t) (.forked name pid) with
        child := Function.update l.child pid (some ⟨name, false⟩) }
  | build (t : Nat) (name : String) (pid : Int) (h : l.holding (.thread t) = .forked name pid) :
      Step l { l.put (.thread t) (.channel name l.next) with
        record := Function.update l.record l.next (some pid), next := l.next + 1 }
  | insert (t : Nat) (name : String) (p : Nat) (h : l.holding (.thread t) = .channel name p) :
      Step l { (l.put (.thread t) .nothing).put (.entry name) (.channel name p) with
        live := Insert.insert name l.live }
  | take (name : String) (p : Nat) (h : l.holding (.entry name) = .channel name p)
      (hidle : l.holding .worker = .nothing) :
      Step l { (l.put (.entry name) .nothing).put .worker (.channel name p) with
        live := l.live.erase name }
  | reap (name : String) (p : Nat) (pid : Int) (c : ChildView)
      (h : l.holding .worker = .channel name p) (hpid : l.record p = some pid)
      (hchild : l.child pid = some c) :
      Step l { l.put .worker (.spent p) with
        child := Function.update l.child pid (some { c with reaped := true }) }
  | spend (name : String) (p : Nat) (h : l.holding .worker = .channel name p)
      (hpid : l.record p = some (-1)) :
      Step l (l.put .worker (.spent p))
  | lose (name : String) (p : Nat) (h : l.holding .worker = .channel name p) :
      Step l (l.put .worker .nothing)
  | delete (p : Nat) (h : l.holding .worker = .spent p) :
      Step l { l.put .worker .nothing with record := Function.update l.record p none }

/-- The worker waits for a channel without child and reaps the child `pid` of another one. -/
inductive Stray (l : Ledger) : Ledger → Prop
  | reap (name : String) (p : Nat) (pid : Int) (c : ChildView)
      (h : l.holding .worker = .channel name p) (hpid : l.record p = some (-1))
      (hchild : l.child pid = some c) :
      Stray l { l.put .worker .nothing with
        child := Function.update l.child pid (some { c with reaped := true }) }

variable {l l' : Ledger} {a b : Place}

theorem Stray.without_child (h : Stray l l') :
    ∃ name p, l.holding .worker = .channel name p ∧ l.record p = some (-1) := by
  cases h with
  | reap name p pid c hheld hpid => exact ⟨name, p, hheld, hpid⟩

@[simp] theorem put_record (l : Ledger) (a : Place) (h : Holding) : (l.put a h).record = l.record :=
  rfl

theorem put_self (l : Ledger) (a : Place) (h : Holding) : (l.put a h).holding a = h :=
  Function.update_self ..

theorem put_other {h : Holding} (hba : b ≠ a) : (l.put a h).holding b = l.holding b :=
  Function.update_of_ne hba ..

theorem put_eq_self {h : Holding} (hh : l.holding a = h) : l.put a h = l := by
  rw [put, ← hh, Function.update_eq_self]

theorem put_put (l : Ledger) (a : Place) (x y : Holding) : (l.put a x).put a y = l.put a y := by
  rw [put, put, put, Function.update_idem]

theorem put_comm {x y : Holding} (hab : a ≠ b) : (l.put a x).put b y = (l.put b y).put a x := by
  rw [put, put, put, put, Function.update_comm hab]

theorem ptr_put (l : Ledger) (a : Place) (h : Holding) :
    (fun b => ((l.put a h).holding b).ptr) =
      Function.update (fun b => (l.holding b).ptr) a h.ptr := by
  funext b
  by_cases hba : b = a
  · rw [hba, put_self, Function.update_self]
  · rw [put_other hba, Function.update_of_ne hba]

/-- Every record that is held is allocated and held once; the table holds the live channels. -/
structure RecordsOk (l : Ledger) : Prop where
  exclusive : Exclusive fun a => (l.holding a).ptr
  allocated : ∀ a p, (l.holding a).ptr = some p → l.record p ≠ none
  fresh : ∀ p, l.next ≤ p → l.record p = none
  live : ∀ key, key ∈ l.live ↔ l.holding (.entry key) ≠ .nothing

theorem RecordsOk.lt_next (h : l.RecordsOk) {p : Nat} (hp : l.record p ≠ none) : p < l.next := by
  by_contra hge
  exact hp (h.fresh p (Nat.le_of_not_lt hge))

private theorem RecordsOk.put_none (h : l.RecordsOk) {x : Holding} (hx : x.ptr = none)
    (hplace : ∀ key, Place.entry key ≠ a) : (l.put a x).RecordsOk := by
  refine ⟨?_, ?_, h.fresh, ?_⟩
  · rw [ptr_put, hx]
    exact h.exclusive.release a
  · intro b p hb
    have hput := congrFun (ptr_put l a x) b
    rw [hb, hx] at hput
    exact h.allocated b p (update_none_eq_some hput.symm).2
  · intro key
    rw [put_other (hplace key)]
    exact h.live key

private theorem RecordsOk.put_same (h : l.RecordsOk) {x : Holding} (hx : x.ptr = (l.holding a).ptr)
    (hplace : ∀ key, Place.entry key ≠ a) : (l.put a x).RecordsOk := by
  have hptr : (fun b => ((l.put a x).holding b).ptr) = fun b => (l.holding b).ptr := by
    rw [ptr_put, hx, Function.update_eq_self]
  refine ⟨?_, ?_, h.fresh, ?_⟩
  · rw [hptr]
    exact h.exclusive
  · intro b p hb
    exact h.allocated b p ((congrFun hptr b).symm.trans hb)
  · intro key
    rw [put_other (hplace key)]
    exact h.live key

private theorem RecordsOk.put_move (h : l.RecordsOk) {p : Nat} (ha : (l.holding a).ptr = some p)
    {x : Holding} (hx : x.ptr = some p) (b : Place) {live : Finset String}
    (hlive : ∀ key, key ∈ live ↔ ((l.put a .nothing).put b x).holding (.entry key) ≠ .nothing) :
    RecordsOk { (l.put a .nothing).put b x with live := live } := by
  have hptr : (fun c => (((l.put a .nothing).put b x).holding c).ptr) =
      Function.update (Function.update (fun c => (l.holding c).ptr) a none) b (some p) := by
    rw [ptr_put, ptr_put, hx]
    rfl
  refine ⟨?_, ?_, h.fresh, hlive⟩
  · have hmoved := h.exclusive.move ha b
    rw [← hptr] at hmoved
    exact hmoved
  · intro c q hc
    have hheld := (congrFun hptr c).symm.trans hc
    by_cases hcb : c = b
    · rw [hcb, Function.update_self] at hheld
      rw [← Option.some.inj hheld]
      exact h.allocated a p ha
    · rw [Function.update_of_ne hcb] at hheld
      exact h.allocated c q (update_none_eq_some hheld).2

private theorem RecordsOk.child (h : l.RecordsOk) (child : Int → Option ChildView) :
    RecordsOk { l with child := child } :=
  ⟨h.exclusive, h.allocated, h.fresh, h.live⟩

private theorem RecordsOk.build (h : l.RecordsOk) (t : Nat) (name : String) (pid : Int) :
    RecordsOk { l.put (.thread t) (.channel name l.next) with
      record := Function.update l.record l.next (some pid), next := l.next + 1 } := by
  have hnew (b : Place) : (l.holding b).ptr ≠ some l.next := fun hb =>
    h.allocated b l.next hb (h.fresh l.next (Nat.le_refl _))
  refine ⟨?_, ?_, ?_, ?_⟩
  · have hacquired := h.exclusive.acquire (.thread t) hnew
    rw [← show Holding.ptr (.channel name l.next) = some l.next from rfl, ← ptr_put] at hacquired
    exact hacquired
  · intro b p hb
    by_cases hp : p = l.next
    · simp [hp]
    · have hother : b ≠ .thread t := by
        intro heq
        subst heq
        rw [show ((l.put (.thread t) (.channel name l.next)).holding (.thread t)).ptr =
          some l.next from congrArg Holding.ptr (put_self ..)] at hb
        exact hp (Option.some.inj hb).symm
      have hold := h.allocated b p ((congrArg Holding.ptr (put_other hother)).symm.trans hb)
      simpa [Function.update_of_ne hp] using hold
  · intro p hp
    have hne : p ≠ l.next := by
      have : l.next + 1 ≤ p := hp
      omega
    have hle : l.next ≤ p := Nat.le_of_succ_le hp
    simpa [Function.update_of_ne hne] using h.fresh p hle
  · intro key
    exact (h.live key).trans (by rw [put_other (by simp)])

private theorem RecordsOk.delete (h : l.RecordsOk) {p : Nat} (hheld : l.holding .worker = .spent p) :
    RecordsOk { l.put .worker .nothing with record := Function.update l.record p none } := by
  have hfreed := h.put_none (a := .worker) (x := .nothing) rfl (by simp)
  refine ⟨hfreed.exclusive, ?_, ?_, hfreed.live⟩
  · intro b q hb
    have hput := congrFun (ptr_put l .worker .nothing) b
    obtain ⟨hne, hheldb⟩ := update_none_eq_some (hput.symm.trans hb)
    have hqp : q ≠ p := by
      intro heq
      subst heq
      exact hne (h.exclusive b .worker q hheldb (congrArg Holding.ptr hheld))
    simpa [Function.update_of_ne hqp] using h.allocated b q hheldb
  · intro q hq
    by_cases hqp : q = p
    · simp [hqp]
    · simpa [Function.update_of_ne hqp] using h.fresh q hq

theorem RecordsOk.step (h : l.RecordsOk) (hstep : Step l l') : l'.RecordsOk := by
  cases hstep with
  | stutter => exact h
  | forkFailed t name => exact h.put_none rfl (by simp)
  | fork t name pid => exact (h.put_none rfl (by simp)).child _
  | build t name pid hheld => exact h.build t name pid
  | insert t name p hheld =>
      refine h.put_move (congrArg Holding.ptr hheld) rfl _ fun key => ?_
      rw [Finset.mem_insert]
      by_cases hkey : key = name
      · rw [hkey, put_self]
        simp
      · rw [put_other (by simp [hkey]), put_other (by simp), h.live key]
        simp [hkey]
  | take name p hheld hidle =>
      refine h.put_move (congrArg Holding.ptr hheld) rfl _ fun key => ?_
      rw [Finset.mem_erase, put_other (by simp)]
      by_cases hkey : key = name
      · rw [hkey, put_self]
        simp
      · rw [put_other (by simp [hkey]), h.live key]
        simp [hkey]
  | reap name p pid c hheld => exact (h.put_same (by rw [hheld]; rfl) (by simp)).child _
  | spend name p hheld => exact h.put_same (by rw [hheld]; rfl) (by simp)
  | lose name p hheld => exact h.put_none rfl (by simp)
  | delete p hheld => exact h.delete hheld

theorem RecordsOk.stray (h : l.RecordsOk) (hstray : Stray l l') : l'.RecordsOk := by
  cases hstray with
  | reap name p pid c => exact (h.put_none rfl (by simp)).child _

/-- The child a place is responsible for, if its `fork` has not failed. -/
def childAt (l : Ledger) (a : Place) : Option Int := (l.pidAt a).filter (· ≠ -1)

theorem childAt_eq_some {pid : Int} :
    l.childAt a = some pid ↔ l.pidAt a = some pid ∧ pid ≠ -1 := by
  simp [childAt]

/-- Every child that is held is held once, was forked under the name it is held for, and has not been
reaped. -/
structure ChildrenOk (l : Ledger) : Prop where
  exclusive : Exclusive l.childAt
  owned : ∀ a pid, l.childAt a = some pid → 0 < pid ∧ ∃ c, l.child pid = some c ∧
    (l.holding a).name = some c.chan ∧ c.reaped = false

theorem pidAt_of_channel {name : String} {p : Nat} (h : l.holding a = .channel name p) :
    l.pidAt a = l.record p := by
  rw [pidAt, h]
  rfl

theorem pidAt_put (l : Ledger) (a : Place) (h : Holding) :
    (l.put a h).pidAt = Function.update l.pidAt a (h.pid l.record) := by
  funext b
  by_cases hba : b = a
  · rw [hba, Function.update_self, pidAt, put_self, put_record]
  · rw [Function.update_of_ne hba, pidAt, put_other hba, put_record, pidAt]

theorem childAt_put (l : Ledger) (a : Place) (h : Holding) :
    (l.put a h).childAt = Function.update l.childAt a ((h.pid l.record).filter (· ≠ -1)) := by
  funext b
  rw [childAt, pidAt_put]
  by_cases hba : b = a
  · rw [hba, Function.update_self, Function.update_self]
  · rw [Function.update_of_ne hba, Function.update_of_ne hba, childAt]

/-- Only the record a place holds matters for its pid. -/
theorem pid_update {h : Holding} {p : Nat} (hp : h.ptr ≠ some p) (record : Nat → Option Int)
    (v : Option Int) : h.pid (Function.update record p v) = h.pid record := by
  cases h with
  | channel name q =>
      have hqp : q ≠ p := fun hqp => hp (by rw [hqp]; rfl)
      exact Function.update_of_ne hqp ..
  | _ => rfl

private theorem ChildrenOk.put_none (h : l.ChildrenOk) {x : Holding}
    (hx : (x.pid l.record).filter (· ≠ -1) = none) (a : Place) : (l.put a x).ChildrenOk := by
  have hchild : (l.put a x).childAt = Function.update l.childAt a none := by
    rw [childAt_put, hx]
  constructor
  · rw [hchild]
    exact h.exclusive.release a
  · intro b pid hb
    rw [hchild] at hb
    obtain ⟨hne, hheld⟩ := update_none_eq_some hb
    rw [put_other hne]
    exact h.owned b pid hheld

private theorem ChildrenOk.put_move (h : l.ChildrenOk) {x : Holding}
    (hpid : x.pid l.record = l.pidAt a) (hname : x.name = (l.holding a).name) (b : Place) :
    ((l.put a .nothing).put b x).ChildrenOk := by
  have hchild : ((l.put a .nothing).put b x).childAt =
      Function.update (Function.update l.childAt a none) b (l.childAt a) := by
    rw [childAt_put, childAt_put, put_record, hpid]
    rfl
  cases hheld : l.childAt a with
  | none =>
      rw [hheld] at hchild
      constructor
      · rw [hchild]
        exact (h.exclusive.release a).release b
      · intro c pid hc
        rw [hchild] at hc
        obtain ⟨hcb, hc⟩ := update_none_eq_some hc
        obtain ⟨hca, hc⟩ := update_none_eq_some hc
        rw [put_other hcb, put_other hca]
        exact h.owned c pid hc
  | some pid =>
      rw [hheld] at hchild
      constructor
      · rw [hchild]
        exact h.exclusive.move hheld b
      · intro c pid' hc
        rw [hchild] at hc
        by_cases hcb : c = b
        · rw [hcb, Function.update_self] at hc
          rw [hcb, put_self, hname, ← Option.some.inj hc]
          exact h.owned a pid hheld
        · rw [Function.update_of_ne hcb] at hc
          obtain ⟨hca, hc⟩ := update_none_eq_some hc
          rw [put_other hcb, put_other hca]
          exact h.owned c pid' hc

private theorem ChildrenOk.child (h : l.ChildrenOk) {pid : Int} (hfree : ∀ b, l.childAt b ≠ some pid)
    (c : Option ChildView) :
    ChildrenOk { l with child := Function.update l.child pid c } := by
  refine ⟨h.exclusive, ?_⟩
  intro b pid' hb
  have hne : pid' ≠ pid := by
    intro heq
    subst heq
    exact hfree b hb
  have howned := h.owned b pid' hb
  rw [← Function.update_of_ne hne c l.child] at howned
  exact howned

private theorem ChildrenOk.record (h : l.ChildrenOk) {record : Nat → Option Int} {next : Nat}
    (hsame : ∀ b, (l.holding b).pid record = (l.holding b).pid l.record) :
    ChildrenOk { l with record := record, next := next } := by
  have hchild : childAt { l with record := record, next := next } = l.childAt := by
    funext b
    exact congrArg (Option.filter (· ≠ -1)) (hsame b)
  constructor
  · rw [hchild]
    exact h.exclusive
  · intro b pid hb
    rw [hchild] at hb
    exact h.owned b pid hb

private theorem ChildrenOk.fork (h : l.ChildrenOk) (t : Nat) (name : String) {pid : Int}
    (hpid : 0 < pid) (hfree : ∀ c, l.child pid = some c → c.reaped = true) :
    ChildrenOk { l.put (.thread t) (.forked name pid) with
      child := Function.update l.child pid (some ⟨name, false⟩) } := by
  have hnew (b : Place) : l.childAt b ≠ some pid := by
    intro hb
    obtain ⟨-, c, hc, -, hreaped⟩ := h.owned b pid hb
    rw [hfree c hc] at hreaped
    cases hreaped
  have hchild : (l.put (.thread t) (.forked name pid)).childAt =
      Function.update l.childAt (.thread t) (some pid) := by
    have hne : pid ≠ -1 := by omega
    rw [childAt_put, Holding.pid, Option.filter_some, if_pos (by simpa using hne)]
  constructor
  · exact (congrArg Exclusive hchild).mpr (h.exclusive.acquire _ hnew)
  · intro b pid' hb
    have hheld := (congrFun hchild b).symm.trans hb
    by_cases hbt : b = .thread t
    · subst hbt
      rw [Function.update_self] at hheld
      obtain rfl := Option.some.inj hheld
      exact ⟨hpid, _, Function.update_self .., congrArg Holding.name (put_self ..), rfl⟩
    · rw [Function.update_of_ne hbt] at hheld
      have hne : pid' ≠ pid := by
        intro heq
        subst heq
        exact hnew b hheld
      obtain ⟨hpos, c, hc, hname, hreaped⟩ := h.owned b pid' hheld
      refine ⟨hpos, c, ?_, ?_, hreaped⟩
      · exact (Function.update_of_ne hne ..).trans hc
      · exact (congrArg Holding.name (put_other hbt)).trans hname

theorem ChildrenOk.step (h : l.ChildrenOk) (hrec : l.RecordsOk) (hstep : Step l l') :
    l'.ChildrenOk := by
  cases hstep with
  | stutter => exact h
  | forkFailed t name => exact h.put_none (by simp [Holding.pid]) _
  | fork t name pid hheld hpid hfree => exact h.fork t name hpid hfree
  | build t name pid hheld =>
      -- the record is filled with the pid that the thread holds
      have hsame (b : Place) : (l.holding b).pid (Function.update l.record l.next (some pid)) =
          (l.holding b).pid l.record :=
        pid_update (fun hb => hrec.allocated b l.next hb (hrec.fresh l.next (Nat.le_refl _))) ..
      have hfilled : ChildrenOk
          { l with record := Function.update l.record l.next (some pid), next := l.next + 1 } :=
        h.record hsame
      have hmoved := hfilled.put_move (x := .channel name l.next) (a := .thread t)
        (by
          rw [pidAt, hheld]
          exact Function.update_self ..)
        (by rw [hheld]; rfl) (.thread t)
      rw [put_put] at hmoved
      exact hmoved
  | insert t name p hheld =>
      have hmoved := h.put_move (x := .channel name p) (a := .thread t)
        (pidAt_of_channel hheld).symm (by rw [hheld]) (.entry name)
      exact ⟨hmoved.exclusive, hmoved.owned⟩
  | take name p hheld hidle =>
      have hmoved := h.put_move (x := .channel name p) (a := .entry name)
        (pidAt_of_channel hheld).symm (by rw [hheld]) .worker
      exact ⟨hmoved.exclusive, hmoved.owned⟩
  | reap name p pid c hheld hpid =>
      have hreleased := h.put_none (x := .spent p) rfl .worker
      refine hreleased.child ?_ _
      intro b hb
      rw [childAt_put] at hb
      obtain ⟨hne, hb⟩ := update_none_eq_some hb
      have hworker : l.childAt .worker = some pid :=
        childAt_eq_some.mpr ⟨(pidAt_of_channel hheld).trans hpid, (childAt_eq_some.mp hb).2⟩
      exact hne (h.exclusive b .worker pid hb hworker)
  | spend name p => exact h.put_none rfl _
  | lose name p => exact h.put_none rfl _
  | delete p hheld =>
      have hreleased := h.put_none (x := .nothing) rfl .worker
      refine hreleased.record fun b => pid_update ?_ ..
      intro hb
      have hput := congrFun (ptr_put l .worker .nothing) b
      obtain ⟨hne, hheldb⟩ := update_none_eq_some (hput.symm.trans hb)
      exact hne (hrec.exclusive b .worker p hheldb (congrArg Holding.ptr hheld))

end Ledger

end GMProxy.TdChannel
