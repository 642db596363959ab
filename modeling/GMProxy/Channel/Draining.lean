import GMProxy.Channel.Removal
import GMProxy.Library.Service

/-!
# The deletion worker alone

A run in which only the worker moves serves requests for children: a name asks for the child behind
its entry, and the name of a channel whose `fork` failed for any child there is.
-/

namespace GMProxy.TdChannel

open Machine Service

/-- The children that a pid given to `kill` or `waitpid` stands for. -/
def want (pid : Int) : Option Int := if pid = -1 then none else some pid

theorem accepts_want {pid q : Int} : Accepts (want pid) q ↔ pid = -1 ∨ pid = q := by
  unfold Accepts want
  by_cases hpid : pid = -1
  · simp [hpid]
  · simp [hpid]

namespace Manager

/-- The pid in the record of a channel; the worker does nothing for the empty name. -/
def pidOf (s : Manager) (name : String) : Option Int :=
  if name = "" then none
  else (s.chanMap.lookup name).join.bind fun p => (s.heap p).map Channel.pid

def wantedBy (s : Manager) (name : String) : Option (Option Int) := (s.pidOf name).map want

def unreaped (s : Manager) : Set Int :=
  {q | ∃ child, s.children q = some child ∧ child.reaped = false}

def signalsTo (s : Manager) (q : Int) : Nat := ((s.children q).map Child.signals).getD 0

/-- The children that are sent a signal between two states. -/
def signalledIn (s s' : Manager) : Set Int := {q | s.signalsTo q < s'.signalsTo q}

/-- The children that are reaped between two states. -/
def reapedIn (s s' : Manager) : Set Int := s.unreaped \ s'.unreaped

/-- `waitpid` fails only when there is no child to wait for; the process handles no signals that could
interrupt it. -/
def WaitsForChild (s : Manager) : Event → Prop
  | .workerWait ret => ret = -1 → ∀ chanId p c, s.worker = .killed chanId p → s.heap p = some c →
      ∀ q ∈ s.unreaped, ¬ (c.pid = -1 ∨ c.pid = q)
  | _ => True

/-- The worker alone serves the list `names` of pending names, from the state `s` on. -/
def Drains (s : Manager) (names : List String) (s' : Manager) : Prop :=
  ∃ events, (∀ e ∈ events, e.isWorker = true) ∧
    StepsMeet step WaitsForChild { s with delChanList := names } events ∧
    run step { s with delChanList := names } events = some s' ∧
    s'.delChanList = [] ∧ s'.worker = .idle

/-- No thread keeps the worker from moving. -/
structure Ready (s : Manager) : Prop where
  sound : s.Sound
  chanMap : s.chanMapLocked = false
  delChan : s.delChanLocked = false

variable {s s' : Manager} {e : Event} {name chanId : String} {p : Ptr} {c : Channel}

theorem lookup_join : (s.chanMap.lookup name).join = some p ↔
    s.chanMap.lookup name = some (some p) := Option.join_eq_some_iff

theorem pidOf_entry (hname : name ≠ "") (hp : s.chanMap.lookup name = some (some p))
    (hc : s.heap p = some c) : s.pidOf name = some c.pid := by
  rw [pidOf, if_neg hname, lookup_join.mpr hp, Option.bind_some, hc, Option.map_some]

theorem pidOf_null (h : (s.chanMap.subscript name).1 = none) : s.pidOf name = none := by
  have hjoin : (s.chanMap.lookup name).join = none := by
    rcases ChanMap.subscript_eq_none.mp h with hnone | hnull
    · rw [hnone]
      rfl
    · rw [hnull]
      rfl
  rw [pidOf, hjoin]
  exact ite_self none

/-- What names stand for changes only with the entries and the records of entries. -/
theorem pidOf_congr
    (hentries : ∀ key p, s'.chanMap.lookup key = some (some p) ↔ s.chanMap.lookup key = some (some p))
    (hrecords : ∀ key p, s.chanMap.lookup key = some (some p) →
      (s'.heap p).map Channel.pid = (s.heap p).map Channel.pid) : s'.pidOf = s.pidOf := by
  funext key
  have hjoin : (s'.chanMap.lookup key).join = (s.chanMap.lookup key).join := by
    apply Option.ext
    intro p
    rw [lookup_join, lookup_join]
    exact hentries key p
  unfold pidOf
  rw [hjoin]
  cases hp : (s.chanMap.lookup key).join with
  | none => rfl
  | some p =>
      rw [Option.bind_some, Option.bind_some, hrecords key p (lookup_join.mp hp)]

/-- The children that the worker is still going to ask for. -/
def pending (s : Manager) : List (Option Int) :=
  match s.worker with
  | .popped chanId => requests s.wantedBy (chanId :: s.delChanList)
  | .taken _ p | .killed _ p =>
      ((s.heap p).map fun c => want c.pid).toList ++ requests s.wantedBy s.delChanList
  | _ => requests s.wantedBy s.delChanList

/-- The children that the worker has sent a signal to and is now going to wait for. -/
def asked (s : Manager) : Set Int :=
  match s.worker with
  | .killed _ p =>
      {q | q ∈ s.unreaped ∧ ∃ c, s.heap p = some c ∧ Accepts (want c.pid) q}
  | _ => ∅

theorem pending_idle (h : s.worker = .idle) : s.pending = requests s.wantedBy s.delChanList := by
  rw [pending, h]

theorem wantedBy_congr (h : s'.pidOf = s.pidOf) : s'.wantedBy = s.wantedBy := by
  unfold wantedBy
  rw [h]

theorem wantedBy_none (h : s.pidOf name = none) : s.wantedBy name = none := by
  rw [wantedBy, h, Option.map_none]

theorem pending_pop (h : s.workerPop = some s') : s'.pending = s.pending := by
  obtain ⟨-, hidle, ⟨-, rfl⟩ | ⟨chanId, rest, hlist, ⟨rfl, rfl⟩ | ⟨-, rfl⟩⟩⟩ := workerPop_cases h
  · rfl
  · rw [pending_idle hidle, hlist, requests_cons_none (wantedBy_none (if_pos rfl))]
    exact pending_idle hidle
  · rw [pending_idle hidle, hlist]
    rfl

private theorem pidOf_erase (key : String) :
    pidOf { s with chanMap := (s.chanMap.subscript chanId).2.erase chanId } key =
      if key = chanId then none else s.pidOf key := by
  by_cases hkey : key = chanId
  · subst hkey
    simp [pidOf]
  · simp [pidOf, hkey, ChanMap.lookup_subscript]

private theorem exists_record (hready : s.Ready) {a : Place} {x : Holding}
    (hheld : s.ledger.holding a = x) (hx : x.ptr = some p) : ∃ c, s.heap p = some c := by
  have hallocated := hready.sound.records.allocated a p ((congrArg Holding.ptr hheld).trans hx)
  cases hc : s.heap p with
  | some c => exact ⟨c, rfl⟩
  | none => exact absurd (congrArg (Option.map Channel.pid) hc) hallocated

private theorem pending_take (hready : s.Ready) (h : s.workerTake = some s') :
    s'.pending = s.pending := by
  obtain ⟨-, chanId, hpopped, ⟨p, hp, rfl⟩ | ⟨hnone, rfl⟩⟩ := workerTake_cases h
  · obtain ⟨c, hc⟩ := exists_record hready (holding_entry hp) rfl
    have hname : chanId ≠ "" := by
      rintro rfl
      exact hready.sound.popped hpopped
    have hwant : s.wantedBy chanId = some (want c.pid) := by
      rw [wantedBy, pidOf_entry hname hp hc, Option.map_some]
    have hrest : wantedBy { s with chanMap := (s.chanMap.subscript chanId).2.erase chanId } =
        Function.update s.wantedBy chanId none := by
      funext key
      rw [wantedBy, pidOf_erase, Function.update_apply]
      split
      · rfl
      · rfl
    have hpending : s.pending = want c.pid ::
        requests (Function.update s.wantedBy chanId none) s.delChanList := by
      rw [pending, hpopped]
      exact requests_cons_some hwant
    rw [hpending, ← hrest]
    simp only [pending, hc]
    rfl
  · have hpending : s.pending = requests s.wantedBy s.delChanList := by
      rw [pending, hpopped]
      exact requests_cons_none (wantedBy_none (pidOf_null hnone))
    have hsame : (s.touch chanId).pidOf = s.pidOf :=
      pidOf_congr (touch_entries s chanId) fun _ _ _ => rfl
    rw [hpending, ← wantedBy_congr hsame]
    rfl

private theorem pending_kill (h : s.workerKill = some s') : s'.pending = s.pending := by
  obtain ⟨chanId, p, c, htaken, -, rfl⟩ := workerKill_cases h
  simp only [pending, htaken]
  rfl

private theorem pending_unlink (h : s.workerUnlink = some s') : s'.pending = s.pending := by
  obtain ⟨chanId, p, c, hwaited, -, rfl⟩ := workerUnlink_cases h
  simp only [pending, hwaited]
  rfl

private theorem pending_delete (hready : s.Ready) (h : s.workerDelete = some s') :
    s'.pending = s.pending := by
  obtain ⟨chanId, p, hunlinked, rfl⟩ := workerDelete_cases h
  have hsame : pidOf ({ s with worker := .idle }.setHeap p none) = s.pidOf := by
    refine pidOf_congr (fun _ _ => Iff.rfl) fun key q hq => ?_
    have hne : q ≠ p := by
      rintro rfl
      exact not_spent_of_entry hready.sound.records hq (holding_worker hunlinked)
    exact congrArg (Option.map Channel.pid) (Function.update_of_ne hne ..)
  have hpending : s.pending = requests s.wantedBy s.delChanList := by
    rw [pending, hunlinked]
  rw [hpending, ← wantedBy_congr hsame]
  rfl

theorem unreaped_congr (h : s'.children = s.children) : s'.unreaped = s.unreaped := by
  unfold unreaped
  rw [h]

theorem signalsTo_congr (h : s'.children = s.children) : s'.signalsTo = s.signalsTo := by
  funext q
  rw [signalsTo, signalsTo, h]

theorem signalledIn_eq_empty (h : s'.signalsTo = s.signalsTo) : s.signalledIn s' = ∅ := by
  unfold signalledIn
  simp [h]

theorem unreaped_kill (s : Manager) (pid : Int) : (s.kill pid).unreaped = s.unreaped := by
  ext q
  unfold unreaped kill
  cases hq : s.children q with
  | none => simp [hq]
  | some child =>
      simp only [Set.mem_ofPred_eq, hq, Option.map_some, Option.some.injEq, exists_eq_left']
      split <;> rfl

/-- The signal goes to the children that have not been reaped. -/
theorem signalledIn_kill (s : Manager) (pid : Int) :
    s.signalledIn (s.kill pid) = {q | q ∈ s.unreaped ∧ Accepts (want pid) q} := by
  ext q
  simp only [signalledIn, signalsTo, unreaped, kill, Set.mem_ofPred_eq, accepts_want]
  cases hq : s.children q with
  | none => simp
  | some child =>
      simp only [Option.map_some, Option.getD_some, Option.some.injEq, exists_eq_left']
      by_cases hsent : (pid = -1 ∨ pid = q) ∧ ¬ child.reaped = true
      · rw [if_pos hsent]
        simpa using ⟨Bool.eq_false_of_not_eq_true hsent.2, hsent.1⟩
      · rw [if_neg hsent]
        simpa [and_comm] using hsent

theorem unreaped_reap (s : Manager) (child : Child) (q : Int) :
    (s.setChild q { child with reaped := true }).unreaped = s.unreaped \ {q} := by
  ext r
  simp only [unreaped, setChild, Set.mem_ofPred_eq, Set.mem_sdiff, Set.mem_singleton_iff]
  by_cases hr : r = q
  · subst hr
    simp
  · simp [hr]

theorem signalsTo_reap {child : Child} {q : Int} (hq : s.children q = some child) :
    (s.setChild q { child with reaped := true }).signalsTo = s.signalsTo := by
  funext r
  by_cases hr : r = q
  · subst hr
    simp [signalsTo, setChild, hq]
  · simp [signalsTo, setChild, Function.update_of_ne hr]

/-- What the worker was going to wait for has been waited for: `waitpid` found no child, or it has
reaped one. -/
theorem workerWait_pending {ret : Int} (h : s.workerWait ret = some s') :
    ∃ chanId p c, s.worker = .killed chanId p ∧ s.heap p = some c ∧
      s.pending = want c.pid :: s'.pending ∧ s'.asked = ∅ ∧ s'.signalsTo = s.signalsTo ∧
      ((ret = -1 ∧ s'.unreaped = s.unreaped) ∨
        (ret ∈ s.unreaped ∧ Accepts (want c.pid) ret ∧ s'.unreaped = s.unreaped \ {ret})) := by
  obtain ⟨chanId, p, c, r, hkilled, hheap, hwait, hworker⟩ := workerWait_cases h
  have hbefore : s.pending = want c.pid :: requests s.wantedBy s.delChanList := by
    simp [pending, hkilled, hheap]
  refine ⟨chanId, p, c, hkilled, hheap, ?_⟩
  rw [hbefore]
  rcases waitpid_cases hwait with ⟨hret, rfl⟩ | ⟨-, child, hchild, hreaped, haccepts, rfl⟩
  · rcases hworker with ⟨-, rfl⟩ | ⟨-, rfl⟩
    all_goals exact ⟨rfl, rfl, rfl, Or.inl ⟨hret, rfl⟩⟩
  · have hout := signalsTo_reap hchild
    have hleft := unreaped_reap s child ret
    rcases hworker with ⟨-, rfl⟩ | ⟨-, rfl⟩
    all_goals exact ⟨rfl, rfl, hout,
      Or.inr ⟨⟨child, hchild, hreaped⟩, accepts_want.mpr haccepts, hleft⟩⟩

private theorem quiet_step (hready : s.Ready) (hworker : e.isWorker = true)
    (hquiet : e.movesChild = false) (h : step s e = some s') :
    s'.pending = s.pending ∧ s.asked = ∅ ∧ s'.asked = ∅ := by
  have hasked {r : Manager} (hr : ∀ chanId p, r.worker ≠ .killed chanId p) : r.asked = ∅ := by
    unfold asked
    split
    · exact absurd ‹_› (hr _ _)
    · rfl
  have hplace : (∀ chanId p, s.worker ≠ .killed chanId p) ∧
      ∀ chanId p, s'.worker ≠ .killed chanId p := by
    have hmove := worker_move h
    generalize s.worker = w at hmove
    generalize s'.worker = w' at hmove
    cases hmove with
    | stays hother => exact absurd hworker (by simp [hother])
    | kills | waits | gives => cases hquiet
    | _ => exact ⟨nofun, nofun⟩
  refine ⟨?_, hasked hplace.1, hasked hplace.2⟩
  cases e with
  | workerPop => exact pending_pop h
  | workerTake => exact pending_take hready h
  | workerUnlink => exact pending_unlink h
  | workerDelete => exact pending_delete hready h
  | workerKill | workerWait ret => cases hquiet
  | _ => cases hworker

private theorem workerKill_unreaped (h : s.workerKill = some s') : s'.unreaped = s.unreaped := by
  obtain ⟨chanId, p, c, -, -, rfl⟩ := workerKill_cases h
  exact unreaped_kill s c.pid

private theorem asked_kill (h : s.workerKill = some s') :
    s.asked = ∅ ∧ s'.asked = s.signalledIn s' := by
  have hsame := workerKill_unreaped h
  obtain ⟨chanId, p, c, htaken, hc, rfl⟩ := workerKill_cases h
  have hsent : s.signalledIn { s.kill c.pid with worker := .killed chanId p } =
      {q | q ∈ s.unreaped ∧ Accepts (want c.pid) q} := signalledIn_kill s c.pid
  have hrecord : (s.kill c.pid).heap p = some c := hc
  constructor
  · rw [asked, htaken]
  · rw [hsent]
    simp [asked, hsame, hrecord]

private theorem serves_wait {ret : Int} (hwaits : s.WaitsForChild (.workerWait ret))
    (h : s.workerWait ret = some s') {A W : Set Int} (hrest : Serves s'.pending s'.unreaped A W) :
    Serves s.pending s.unreaped (s.asked ∪ A) W := by
  obtain ⟨chanId, p, c, hkilled, hc, hpending, -, -, hreap⟩ := workerWait_pending h
  have hasked : s.asked = {q | q ∈ s.unreaped ∧ Accepts (want c.pid) q} := by
    simp [asked, hkilled, hc]
  rw [hpending, hasked]
  rcases hreap with ⟨hret, hsame⟩ | ⟨hq, haccepts, hleft⟩
  · have hnone : ∀ q ∈ s.unreaped, ¬ Accepts (want c.pid) q := by
      intro q hq haccepts
      exact hwaits hret chanId p c hkilled hc q hq (accepts_want.mp haccepts)
    have hempty : {q | q ∈ s.unreaped ∧ Accepts (want c.pid) q} = ∅ :=
      Set.eq_empty_of_forall_notMem fun q hq => hnone q hq.1 hq.2
    rw [hsame] at hrest
    rw [hempty, Set.empty_union]
    exact hrest.refused hnone
  · rw [hleft] at hrest
    exact hrest.served hq haccepts

/-- A step of the worker serves what it takes off the requests that are pending. -/
theorem serves_step (hready : s.Ready) (hworker : e.isWorker = true) (hwaits : s.WaitsForChild e)
    (h : step s e = some s') {A W : Set Int}
    (hrest : Serves s'.pending s'.unreaped (s'.asked ∪ A) W) :
    Serves s.pending s.unreaped (s.asked ∪ (s.signalledIn s' ∪ A)) W := by
  cases e with
  | workerKill =>
      obtain ⟨hbefore, hafter⟩ := asked_kill h
      rw [pending_kill h, workerKill_unreaped h, hafter] at hrest
      rw [hbefore, Set.empty_union]
      exact hrest
  | workerWait ret =>
      obtain ⟨-, -, -, -, -, -, hdone, hsignals, -⟩ := workerWait_pending h
      rw [hdone, Set.empty_union] at hrest
      rw [signalledIn_eq_empty hsignals, Set.empty_union]
      exact serves_wait hwaits h hrest
  | workerPop | workerTake | workerUnlink | workerDelete =>
      obtain ⟨hpending, hbefore, hafter⟩ := quiet_step hready hworker rfl h
      have hchildren := (step_frame h).children rfl
      rw [hpending, hafter, unreaped_congr hchildren] at hrest
      rw [hbefore, signalledIn_eq_empty (signalsTo_congr hchildren), Set.empty_union]
      exact hrest
  | _ => cases hworker

private theorem signalsTo_step (hworker : e.isWorker = true) (h : step s e = some s') (q : Int) :
    s.signalsTo q ≤ s'.signalsTo q := by
  have hages := child_step h (by rintro t fpid rfl; cases hworker) q
  unfold signalsTo
  generalize s.children q = child at hages ⊢
  generalize s'.children q = child' at hages ⊢
  cases hages with
  | none => exact le_rfl
  | some hage => exact hage.signals

private theorem locks_step (hworker : e.isWorker = true) (h : step s e = some s') :
    s'.chanMapLocked = s.chanMapLocked ∧ s'.delChanLocked = s.delChanLocked := by
  cases e with
  | workerDelete =>
      obtain ⟨chanId, p, -, rfl⟩ := workerDelete_cases h
      exact ⟨rfl, rfl⟩
  | workerPop | workerTake | workerKill | workerWait | workerUnlink => exact (heap_frame rfl h).2
  | _ => cases hworker

theorem Ready.step (hready : s.Ready) (hworker : e.isWorker = true) (h : step s e = some s') :
    s'.Ready where
  sound := hready.sound.step h
  chanMap := (locks_step hworker h).1.trans hready.chanMap
  delChan := (locks_step hworker h).2.trans hready.delChan
/-- No child has the pid that stands for a failed `fork`. -/
theorem pid_of_unreaped (hready : s.Ready) {q : Int} (hq : q ∈ s.unreaped) : q ≠ -1 := by
  obtain ⟨child, hchild, -⟩ := hq
  have hpos := hready.sound.children q child hchild
  omega

private theorem signalsTo_run {events : List Event} (hworker : ∀ e ∈ events, e.isWorker = true)
    (hrun : run step s events = some s') (q : Int) : s.signalsTo q ≤ s'.signalsTo q := by
  induction events generalizing s with
  | nil =>
      obtain rfl := Option.some.inj hrun
      exact le_rfl
  | cons e events ih =>
      obtain ⟨s₁, h, hrest⟩ := Option.bind_eq_some_iff.mp hrun
      obtain ⟨he, hevents⟩ := List.forall_mem_cons.mp hworker
      exact (signalsTo_step he h q).trans (ih hevents hrest)

/-- A run of the worker up to an empty list serves all requests. -/
theorem serves_run {events : List Event} (hready : s.Ready)
    (hworker : ∀ e ∈ events, e.isWorker = true) (hwaits : StepsMeet step WaitsForChild s events)
    (hrun : run step s events = some s') (hlist : s'.delChanList = []) (hidle : s'.worker = .idle) :
    Serves s.pending s.unreaped (s.asked ∪ s.signalledIn s') s'.unreaped := by
  induction events generalizing s with
  | nil =>
      obtain rfl := Option.some.inj hrun
      have hasked : s.asked = ∅ := by
        rw [asked, hidle]
      rw [pending_idle hidle, hlist, hasked, signalledIn_eq_empty rfl, Set.empty_union]
      exact .nil _
  | cons e events ih =>
      obtain ⟨s₁, h, hrest⟩ := Option.bind_eq_some_iff.mp hrun
      obtain ⟨he, hevents⟩ := List.forall_mem_cons.mp hworker
      obtain ⟨hwait, hwaits⟩ := hwaits s₁ h
      have hsplit : s.signalledIn s' = s.signalledIn s₁ ∪ s₁.signalledIn s' := by
        ext q
        have hfirst := signalsTo_step he h q
        have hlater := signalsTo_run hevents hrest q
        simp only [signalledIn, Set.mem_union, Set.mem_ofPred_eq]
        omega
      rw [hsplit]
      exact serves_step hready he hwait h (ih (hready.step he h) hevents hwaits hrest)

/-- A bound on the steps that are left. -/
def workLeft (s : Manager) : Nat :=
  6 * s.delChanList.length +
    match s.worker with
    | .idle => 0
    | .popped _ => 5
    | .taken _ _ => 4
    | .killed _ _ => 3
    | .waited _ _ => 2
    | .unlinked _ _ => 1

private theorem workLeft_step (hworker : e.isWorker = true)
    (hbusy : s.delChanList ≠ [] ∨ s.worker ≠ .idle) (h : step s e = some s') :
    s'.workLeft < s.workLeft := by
  cases e with
  | workerPop =>
      obtain ⟨-, hidle, ⟨hlist, -⟩ | ⟨chanId, rest, hlist, ⟨-, rfl⟩ | ⟨-, rfl⟩⟩⟩ := workerPop_cases h
      · exact absurd hbusy (by simp [hlist, hidle])
      · simp [workLeft, hidle, hlist]
      · simp only [workLeft, hidle, hlist, List.length_cons]
        omega
  | workerTake =>
      obtain ⟨-, chanId, hpopped, ⟨p, -, rfl⟩ | ⟨-, rfl⟩⟩ := workerTake_cases h
      · simp [workLeft, hpopped]
      · simp [workLeft, hpopped, touch]
  | workerKill =>
      obtain ⟨chanId, p, c, htaken, -, rfl⟩ := workerKill_cases h
      simp [workLeft, htaken, kill]
  | workerWait ret =>
      obtain ⟨chanId, p, c, r, hkilled, -, hwait, hplace⟩ := workerWait_cases h
      obtain ⟨children, rfl⟩ := waitpid_eq hwait
      rcases hplace with ⟨-, rfl⟩ | ⟨-, rfl⟩
      all_goals simp [workLeft, hkilled]
  | workerUnlink =>
      obtain ⟨chanId, p, c, hwaited, -, rfl⟩ := workerUnlink_cases h
      simp [workLeft, hwaited]
  | workerDelete =>
      obtain ⟨chanId, p, hunlinked, rfl⟩ := workerDelete_cases h
      simp [workLeft, hunlinked, setHeap]
  | _ => cases hworker

private theorem exists_enabled (hready : s.Ready) (hkilled : ∀ chanId p, s.worker ≠ .killed chanId p) :
    ∃ e, e.isWorker = true ∧ (∀ ret, e ≠ .workerWait ret) ∧ (step s e).isSome := by
  cases hplace : s.worker with
  | idle =>
      refine ⟨.workerPop, rfl, by simp, ?_⟩
      cases hlist : s.delChanList with
      | nil => simp [step, workerPop, hready.delChan, hplace, hlist]
      | cons name rest =>
          by_cases hname : name = ""
          · simp [step, workerPop, hready.delChan, hplace, hlist, hname]
          · simp [step, workerPop, hready.delChan, hplace, hlist, hname]
  | popped chanId =>
      refine ⟨.workerTake, rfl, by simp, ?_⟩
      cases hsub : (s.chanMap.subscript chanId).1 with
      | some p => simp [step, workerTake, hready.chanMap, hplace, hsub]
      | none => simp [step, workerTake, hready.chanMap, hplace, hsub]
  | taken chanId p =>
      obtain ⟨c, hc⟩ := exists_record hready (holding_worker hplace) rfl
      exact ⟨.workerKill, rfl, by simp, by simp [step, workerKill, hplace, hc]⟩
  | killed chanId p => exact absurd hplace (hkilled chanId p)
  | waited chanId p =>
      obtain ⟨c, hc⟩ := exists_record hready (holding_worker hplace) rfl
      exact ⟨.workerUnlink, rfl, by simp, by simp [step, workerUnlink, hplace, hc]⟩
  | unlinked chanId p =>
      exact ⟨.workerDelete, rfl, by simp, by simp [step, workerDelete, hplace]⟩

private theorem pending_step (hready : s.Ready) (hworker : e.isWorker = true)
    (hwait : ∀ ret, e ≠ .workerWait ret) (h : step s e = some s') :
    s'.pending = s.pending ∧ s'.unreaped = s.unreaped := by
  cases e with
  | workerKill => exact ⟨pending_kill h, workerKill_unreaped h⟩
  | workerWait ret => exact absurd rfl (hwait ret)
  | workerPop | workerTake | workerUnlink | workerDelete =>
      exact ⟨(quiet_step hready hworker rfl h).1, unreaped_congr ((step_frame h).children rfl)⟩
  | _ => cases hworker

private theorem workerWait_isSome {ret : Int} {r : Manager} (hkilled : s.worker = .killed chanId p)
    (hc : s.heap p = some c) (hwait : s.waitpid c.pid ret = some r) :
    ∃ s', step s (.workerWait ret) = some s' := by
  by_cases hret : ret = c.pid
  · refine ⟨{ r with worker := .waited chanId p }, ?_⟩
    simp only [step, workerWait, hkilled, hc, hwait]
    exact if_pos hret
  · refine ⟨{ r with worker := .idle }, ?_⟩
    simp only [step, workerWait, hkilled, hc, hwait]
    exact if_neg hret

private theorem exists_wait (hready : s.Ready) (hkilled : s.worker = .killed chanId p) {A W : Set Int}
    (hserves : Serves s.pending s.unreaped A W) :
    ∃ ret s', s.WaitsForChild (.workerWait ret) ∧ step s (.workerWait ret) = some s' ∧
      ∃ B, Serves s'.pending s'.unreaped B W := by
  obtain ⟨c, hc⟩ := exists_record hready (holding_worker hkilled) rfl
  have hpending : s.pending = want c.pid :: requests s.wantedBy s.delChanList := by
    simp [pending, hkilled, hc]
  have hafter {ret : Int} {s' : Manager} (h : step s (.workerWait ret) = some s') :
      requests s.wantedBy s.delChanList = s'.pending ∧
        ((ret = -1 ∧ s'.unreaped = s.unreaped) ∨
          (ret ∈ s.unreaped ∧ s'.unreaped = s.unreaped \ {ret})) := by
    obtain ⟨_, _, _, -, -, hsplit, -, -, hreap⟩ := workerWait_pending h
    refine ⟨(List.cons.inj (hpending.symm.trans hsplit)).2, ?_⟩
    exact hreap.imp_right fun hreap => ⟨hreap.1, hreap.2.2⟩
  rw [hpending] at hserves
  cases hserves with
  | @refused _ _ _ A _ hnone h =>
      have hwait : s.waitpid c.pid (-1) = some s := if_pos rfl
      obtain ⟨s', hstep⟩ := workerWait_isSome hkilled hc hwait
      refine ⟨-1, s', ?_, hstep, A, ?_⟩
      · intro _ chanId' p' c' hkilled' hc' q hq haccepts
        obtain ⟨-, rfl⟩ := WorkerPc.killed.inj (hkilled.symm.trans hkilled')
        obtain rfl := Option.some.inj (hc.symm.trans hc')
        exact hnone q hq (accepts_want.mpr haccepts)
      · obtain ⟨hrest, ⟨-, hsame⟩ | ⟨hmem, -⟩⟩ := hafter hstep
        · rw [← hrest, hsame]
          exact h
        · exact absurd rfl (pid_of_unreaped hready hmem)
  | @served _ _ _ A _ q hq haccepts h =>
      have hne := pid_of_unreaped hready hq
      obtain ⟨child, hchild, hreaped⟩ := hq
      have hwait : s.waitpid c.pid q = some (s.setChild q { child with reaped := true }) := by
        simp [waitpid, hne, hchild, hreaped, accepts_want.mp haccepts]
      obtain ⟨s', hstep⟩ := workerWait_isSome hkilled hc hwait
      refine ⟨q, s', fun hfailed => absurd hfailed hne, hstep, A, ?_⟩
      obtain ⟨hrest, ⟨hfailed, -⟩ | ⟨-, hleft⟩⟩ := hafter hstep
      · exact absurd hfailed hne
      · rw [← hrest, hleft]
        exact h

private theorem exists_step (hready : s.Ready) {A W : Set Int}
    (hserves : Serves s.pending s.unreaped A W) :
    ∃ e s', e.isWorker = true ∧ s.WaitsForChild e ∧ step s e = some s' ∧
      ∃ B, Serves s'.pending s'.unreaped B W := by
  by_cases hkilled : ∃ chanId p, s.worker = .killed chanId p
  · obtain ⟨chanId, p, hkilled⟩ := hkilled
    obtain ⟨ret, s', hwaits, hstep, hrest⟩ := exists_wait hready hkilled hserves
    exact ⟨.workerWait ret, s', rfl, hwaits, hstep, hrest⟩
  · obtain ⟨e, hworker, hwait, hsome⟩ :=
      exists_enabled hready fun chanId p h => hkilled ⟨chanId, p, h⟩
    obtain ⟨s', hstep⟩ := Option.isSome_iff_exists.mp hsome
    obtain ⟨hpending, hsame⟩ := pending_step hready hworker hwait hstep
    have hmet : s.WaitsForChild e := by
      cases e with
      | workerWait ret => exact absurd rfl (hwait ret)
      | _ => trivial
    rw [← hpending, ← hsame] at hserves
    exact ⟨e, s', hworker, hmet, hstep, A, hserves⟩

theorem exists_run (hready : s.Ready) {A W : Set Int} (hserves : Serves s.pending s.unreaped A W) :
    ∃ events s', (∀ e ∈ events, e.isWorker = true) ∧ StepsMeet step WaitsForChild s events ∧
      run step s events = some s' ∧ (s'.delChanList = [] ∧ s'.worker = .idle) ∧ s'.unreaped = W := by
  induction hn : s.workLeft using Nat.strong_induction_on generalizing s A with
  | h n ih =>
    by_cases hdone : s.delChanList = [] ∧ s.worker = .idle
    · rw [pending_idle hdone.2, hdone.1] at hserves
      cases hserves with
      | nil => exact ⟨[], s, nofun, trivial, rfl, hdone, rfl⟩
    · obtain ⟨e, s₁, hworker, hwaits, hstep, B, hB⟩ := exists_step hready hserves
      have hless := workLeft_step hworker (not_and_or.mp hdone) hstep
      rw [hn] at hless
      obtain ⟨events, s', hevents, hmeet, hrun, hend, hleft⟩ :=
        ih s₁.workLeft hless (hready.step hworker hstep) hB rfl
      refine ⟨e :: events, s', List.forall_mem_cons.mpr ⟨hworker, hevents⟩, ?_, ?_, hend, hleft⟩
      · exact (stepsMeet_cons hstep).mpr ⟨hwaits, hmeet⟩
      · rw [run_cons hstep, hrun]

end Manager

end GMProxy.TdChannel
