import GMProxy.Library.Machine
import GMProxy.Channel.Refinement

/-!
# Signals of the deletion worker

Which processes the worker signals and waits for: the child of the channel it removes, unless the
`fork` of that channel had failed.
-/

namespace GMProxy.TdChannel

open Machine (StepsMeet)

namespace Manager

/-- The pid that the worker passes to `kill` or `waitpid`, and the channel it does so for. -/
def signalled (s : Manager) : Event → Option (String × Int)
  | .workerKill =>
      match s.worker with
      | .taken chanId lChannel => (s.heap lChannel).map fun c => (chanId, c.pid)
      | _ => none
  | .workerWait _ =>
      match s.worker with
      | .killed chanId lChannel => (s.heap lChannel).map fun c => (chanId, c.pid)
      | _ => none
  | _ => none

/-- The worker signals or waits for a child that was forked for the channel and not yet reaped. -/
def SignalOk (s : Manager) (e : Event) : Prop :=
  ∀ chanId pid, s.signalled e = some (chanId, pid) →
    0 < pid ∧ ∃ child, s.children pid = some child ∧ child.chan = chanId ∧ child.reaped = false

/-- The `fork` of the channel that the worker removes has not failed. -/
def Forked (s : Manager) (e : Event) : Prop :=
  ∀ chanId pid, s.signalled e = some (chanId, pid) → pid ≠ -1

private theorem signalled_record {s : Manager} {p : Ptr} {name chanId : String} {pid : Int}
    (h : (s.heap p).map (fun c => (name, c.pid)) = some (chanId, pid)) :
    name = chanId ∧ s.ledger.record p = some pid := by
  obtain ⟨c, hc, heq⟩ := Option.map_eq_some_iff.mp h
  obtain ⟨hname, hpid⟩ := Prod.mk.inj heq
  refine ⟨hname, ?_⟩
  rw [← hpid]
  exact record_of_heap hc

/-- The worker signals for the channel it holds. -/
theorem signalled_ledger {s : Manager} {e : Event} {chanId : String} {pid : Int}
    (h : s.signalled e = some (chanId, pid)) :
    ∃ p, s.ledger.holding .worker = .channel chanId p ∧ s.ledger.record p = some pid := by
  unfold signalled at h
  split at h
  case h_1 =>
    split at h
    case h_1 name p htaken =>
      obtain ⟨rfl, hrecord⟩ := signalled_record h
      exact ⟨p, holding_worker htaken, hrecord⟩
    case h_2 => cases h
  case h_2 =>
    split at h
    case h_1 name p hkilled =>
      obtain ⟨rfl, hrecord⟩ := signalled_record h
      exact ⟨p, holding_worker hkilled, hrecord⟩
    case h_2 => cases h
  case h_3 => cases h

end Manager

private theorem not_stray {s s' : Manager} {e : Event} (hforked : s.Forked e)
    (h : step s e = some s') (hwait : ∃ ret, e = .workerWait ret) :
    ¬ s.ledger.Stray s'.ledger := by
  obtain ⟨ret, rfl⟩ := hwait
  obtain ⟨chanId, p, c, r, hkilled, hheap, -, -⟩ := Manager.workerWait_cases h
  intro hstray
  obtain ⟨name, q, hheld, hrecord⟩ := hstray.without_child
  have hworker : s.ledger.holding .worker = .channel chanId p := Manager.holding_worker hkilled
  obtain ⟨-, rfl⟩ := Holding.channel.inj (hworker.symm.trans hheld)
  have hpid : s.ledger.record p = some c.pid := Manager.record_of_heap hheap
  have hsignalled : s.signalled (.workerWait ret) = some (chanId, c.pid) := by
    simp only [Manager.signalled, hkilled, hheap, Option.map_some]
  exact hforked chanId c.pid hsignalled (Option.some.inj (hpid.symm.trans hrecord))

private theorem childrenOk_step {s s' : Manager} {e : Event} (hrec : s.ledger.RecordsOk)
    (hchild : s.ledger.ChildrenOk) (hforked : s.Forked e) (h : step s e = some s') :
    s'.ledger.ChildrenOk := by
  rcases step_refines h with hstep | ⟨hwait, hstray⟩
  · exact hchild.step hrec hstep
  · exact absurd hstray (not_stray hforked h hwait)

private theorem signalOk_iff_forked {s : Manager} {e : Event} (hchild : s.ledger.ChildrenOk) :
    s.SignalOk e ↔ s.Forked e := by
  constructor
  · intro h chanId pid hsignalled
    have hpos := (h chanId pid hsignalled).1
    omega
  · intro h chanId pid hsignalled
    obtain ⟨p, hheld, hrecord⟩ := Manager.signalled_ledger hsignalled
    have hpid : s.ledger.pidAt .worker = some pid := by
      rw [Ledger.pidAt_of_channel hheld, hrecord]
    obtain ⟨hpos, c, hc, hname, hreaped⟩ := hchild.owned .worker pid
      (Ledger.childAt_eq_some.mpr ⟨hpid, h chanId pid hsignalled⟩)
    obtain ⟨child, hkept, rfl⟩ := Option.map_eq_some_iff.mp hc
    rw [hheld] at hname
    exact ⟨hpos, child, hkept, (Option.some.inj hname).symm, hreaped⟩

theorem init_childrenOk : Manager.init.ledger.ChildrenOk := by
  have hnone (a : Place) : Manager.init.ledger.childAt a = none := by
    cases a <;> rfl
  constructor
  · intro a b pid ha
    rw [hnone a] at ha
    cases ha
  · intro a pid ha
    rw [hnone a] at ha
    cases ha

/-- Along every run: the worker signals and waits for nothing but the unreaped child of the channel
it removes exactly when it never does so for a channel whose `fork` had failed. -/
theorem signals_ok_iff (events : List Event) :
    StepsMeet step Manager.SignalOk Manager.init events ↔
      StepsMeet step Manager.Forked Manager.init events := by
  apply Machine.stepsMeet_iff (P := fun s => s.ledger.RecordsOk ∧ s.ledger.ChildrenOk)
  · rintro s e s' ⟨hrec, hchild⟩ hforked h
    exact ⟨recordsOk_step hrec h, childrenOk_step hrec hchild hforked h⟩
  · rintro s e s' ⟨-, hchild⟩ -
    exact signalOk_iff_forked hchild
  · exact ⟨init_recordsOk, init_childrenOk⟩

/-- A channel whose `fork` failed is removed: the worker sends the signal to every process. -/
theorem failedFork_signals_all :
    ¬ StepsMeet step Manager.SignalOk Manager.init ([.createCheck 0 "x" {}, .createFork 0 (-1),
      .createBuild 0 true, .createInsert 0, .delChannel "x", .workerPop, .workerTake] ++
        [.workerKill]) := by
  intro h
  have hsignal := h.last rfl rfl "x" (-1) rfl
  exact absurd hsignal.1 (by decide)

end GMProxy.TdChannel
