import GMProxy.Channel.Steps
import GMProxy.Channel.Ledger

/-!
# The manager refines the ledger

Each step of the manager is one step in the life of a channel, or none.
-/

namespace GMProxy.TdChannel

def Pc.holding : Pc → Holding
  | createForked channel _ fpid => .forked channel fpid
  | createBuilt channel lChannel => .channel channel lChannel
  | _ => .nothing

def WorkerPc.holding : WorkerPc → Holding
  | idle | popped _ => .nothing
  | taken chanId lChannel | killed chanId lChannel => .channel chanId lChannel
  | waited _ lChannel | unlinked _ lChannel => .spent lChannel

/-- What the table holds under `key`; a null pointer is nothing. -/
def entryHolding (key : String) : Option (Option Ptr) → Holding
  | some (some p) => .channel key p
  | _ => .nothing

def Child.view (child : Child) : ChildView := ⟨child.chan, child.reaped⟩

namespace Manager

def ledger (s : Manager) : Ledger where
  holding
    | .entry key => entryHolding key (s.chanMap.lookup key)
    | .thread t => (s.threads t).holding
    | .worker => s.worker.holding
  record p := (s.heap p).map Channel.pid
  next := s.nextPtr
  child pid := (s.children pid).map Child.view
  live := s.live

variable {s s' : Manager} {t : Nat}

theorem holding_entry {key : String} {p : Ptr} (h : s.chanMap.lookup key = some (some p)) :
    s.ledger.holding (.entry key) = .channel key p := congrArg (entryHolding key) h

theorem holding_thread {pc : Pc} (h : s.threads t = pc) :
    s.ledger.holding (.thread t) = pc.holding := congrArg Pc.holding h

theorem holding_worker {w : WorkerPc} (h : s.worker = w) :
    s.ledger.holding .worker = w.holding := congrArg WorkerPc.holding h

theorem record_of_heap {p : Ptr} {c : Channel} (h : s.heap p = some c) :
    s.ledger.record p = some c.pid := congrArg (Option.map Channel.pid) h

theorem entry_allocated (hrec : s.ledger.RecordsOk) {key : String} {p : Ptr}
    (hp : s.chanMap.lookup key = some (some p)) : s.ledger.record p ≠ none := by
  apply hrec.allocated (.entry key) p
  rw [holding_entry hp]
  rfl

theorem view_of_child {pid : Int} {child : Child} (h : s.children pid = some child) :
    s.ledger.child pid = some child.view := congrArg (Option.map Child.view) h

/-- A lookup by `[]` gives the table no channel and takes none away. -/
theorem ledger_touch (s : Manager) (key : String) : (s.touch key).ledger = s.ledger := by
  have hentry (k : String) : entryHolding k ((s.chanMap.subscript key).2.lookup k) =
      entryHolding k (s.chanMap.lookup k) := by
    rw [ChanMap.lookup_subscript]
    split
    case isTrue hk =>
      subst hk
      unfold ChanMap.subscript
      cases s.chanMap.lookup k with
      | some entry => rfl
      | none => rfl
    case isFalse => rfl
  apply Ledger.ext
  · funext a
    cases a with
    | entry k => exact hentry k
    | thread t => rfl
    | worker => rfl
  all_goals rfl

theorem ledger_setThread (s : Manager) (t : Nat) (pc : Pc) :
    (s.setThread t pc).ledger = s.ledger.put (.thread t) pc.holding := by
  apply Ledger.ext
  · funext a
    by_cases ha : a = .thread t
    · subst ha
      rw [Ledger.put_self]
      exact congrArg Pc.holding (Function.update_self ..)
    · rw [Ledger.put_other ha]
      cases a with
      | thread t' =>
          have ht : t' ≠ t := fun ht => ha (by rw [ht])
          exact congrArg Pc.holding (Function.update_of_ne ht ..)
      | entry k => rfl
      | worker => rfl
  all_goals rfl

/-- A thread that stays without channel. -/
theorem ledger_setThread_nothing {pc : Pc} (hold : (s.threads t).holding = .nothing)
    (hnew : pc.holding = .nothing) : (s.setThread t pc).ledger = s.ledger := by
  rw [ledger_setThread, hnew]
  exact Ledger.put_eq_self hold

theorem ledger_worker (s : Manager) (w : WorkerPc) :
    ledger { s with worker := w } = s.ledger.put .worker w.holding := by
  apply Ledger.ext
  · funext a
    by_cases ha : a = .worker
    · subst ha
      rw [Ledger.put_self]
      rfl
    · rw [Ledger.put_other ha]
      cases a with
      | worker => exact absurd rfl ha
      | entry k => rfl
      | thread t => rfl
  all_goals rfl

theorem ledger_setHeap (s : Manager) (p : Ptr) (c : Option Channel) :
    (s.setHeap p c).ledger =
      { s.ledger with record := Function.update s.ledger.record p (c.map Channel.pid) } := by
  apply Ledger.ext
  case record => exact Function.comp_update (Option.map Channel.pid) s.heap p c
  all_goals rfl

theorem ledger_nextPtr (s : Manager) (n : Ptr) :
    ledger { s with nextPtr := n } = { s.ledger with next := n } :=
  rfl

/-- The table after a change of one entry. -/
theorem ledger_chanMap {chanMap : ChanMap} {key : String}
    (hother : ∀ k, k ≠ key → chanMap.lookup k = s.chanMap.lookup k) :
    ledger { s with chanMap := chanMap } =
      s.ledger.put (.entry key) (entryHolding key (chanMap.lookup key)) := by
  apply Ledger.ext
  · funext a
    by_cases ha : a = .entry key
    · subst ha
      rw [Ledger.put_self]
      rfl
    · rw [Ledger.put_other ha]
      cases a with
      | entry k =>
          have hk : k ≠ key := fun hk => ha (by rw [hk])
          exact congrArg (entryHolding k) (hother k hk)
      | thread t => rfl
      | worker => rfl
  all_goals rfl

theorem ledger_setChild (s : Manager) (pid : Int) (child : Child) :
    (s.setChild pid child).ledger =
      { s.ledger with child := Function.update s.ledger.child pid (some child.view) } := by
  apply Ledger.ext
  case child => exact Function.comp_update (Option.map Child.view) s.children pid (some child)
  all_goals rfl

/-- Signals do not show in the ledger. -/
theorem ledger_kill (s : Manager) (pid : Int) : (s.kill pid).ledger = s.ledger := by
  apply Ledger.ext
  case child =>
    funext q
    change ((s.children q).map _).map Child.view = (s.children q).map Child.view
    rw [Option.map_map]
    congr 1
    funext child
    simp only [Function.comp_apply]
    split <;> rfl
  all_goals rfl

/-- Media parameters do not show in the ledger. -/
theorem ledger_updateParam (s : Manager) (p : Ptr) (update : ChanMediaParam → ChanMediaParam) :
    (s.updateParam p update).ledger = s.ledger := by
  unfold updateParam
  split
  case h_1 c hc =>
    rw [ledger_setHeap]
    apply Ledger.ext
    case record =>
      have hpid : s.ledger.record p = some c.pid := record_of_heap hc
      rw [Option.map_some, ← hpid, Function.update_eq_self]
    all_goals rfl
  case h_2 => rfl

private theorem createCheck_ledger {channel : String} {param : ChanMediaParam}
    (h : s.createCheck t channel param = some s') : s'.ledger = s.ledger := by
  obtain ⟨-, hidle, ⟨-, rfl⟩ | ⟨-, rfl⟩⟩ := createCheck_cases h
  · exact ledger_touch s channel
  · have hthread : ((s.touch channel).threads t).holding = .nothing := holding_thread hidle
    rw [ledger_setThread_nothing hthread rfl, ledger_touch]

private theorem childFifo_ledger {pid : Int} (h : s.childFifo pid = some s') :
    s'.ledger = s.ledger := by
  obtain ⟨child, hchild, rfl⟩ := childFifo_cases h
  have hview : s.ledger.child pid = some child.view := view_of_child hchild
  have hsame : Function.update s.ledger.child pid (some child.view) = s.ledger.child := by
    rw [← hview, Function.update_eq_self]
  rw [ledger_setChild]
  apply Ledger.ext
  case child => exact hsame
  all_goals rfl

private theorem workerPop_ledger (h : s.workerPop = some s') : s'.ledger = s.ledger := by
  obtain ⟨-, hidle, ⟨-, rfl⟩ | ⟨chanId, rest, -, ⟨-, rfl⟩ | ⟨-, rfl⟩⟩⟩ := workerPop_cases h
  · rfl
  · rfl
  · have hworker : s.ledger.holding .worker = .nothing := holding_worker hidle
    exact (ledger_worker _ _).trans (Ledger.put_eq_self hworker)

private theorem workerKill_ledger (h : s.workerKill = some s') : s'.ledger = s.ledger := by
  obtain ⟨chanId, p, c, htaken, -, rfl⟩ := workerKill_cases h
  have hworker : (s.kill c.pid).ledger.holding .worker = .channel chanId p :=
    holding_worker htaken
  exact (ledger_worker _ _).trans ((Ledger.put_eq_self hworker).trans (ledger_kill ..))

private theorem workerUnlink_ledger (h : s.workerUnlink = some s') : s'.ledger = s.ledger := by
  obtain ⟨chanId, p, c, hwaited, -, rfl⟩ := workerUnlink_cases h
  have hworker : s.ledger.holding .worker = .spent p := holding_worker hwaited
  exact (ledger_worker _ _).trans (Ledger.put_eq_self hworker)

private theorem codecLookup_ledger {channel resolution : String} {rate maxBitrate : Int}
    (h : s.codecLookup t channel rate resolution maxBitrate = some s') : s'.ledger = s.ledger := by
  obtain ⟨hidle, ⟨p, -, rfl⟩ | ⟨-, rfl⟩⟩ := codecLookup_cases h
  · have hthread : ((s.touch channel).threads t).holding = .nothing := holding_thread hidle
    rw [ledger_setThread_nothing hthread rfl, ledger_touch]
  · exact ledger_touch s channel

private theorem presetLookup_ledger {chan : String} {param : ChanMediaParam}
    (h : s.presetLookup t chan param = some s') : s'.ledger = s.ledger := by
  obtain ⟨hidle, ⟨-, rfl⟩ | ⟨-, -, ⟨p, -, rfl⟩ | ⟨-, rfl⟩⟩⟩ := presetLookup_cases h
  · rfl
  · have hthread : ((s.touch chan).threads t).holding = .nothing := holding_thread hidle
    rw [ledger_setThread_nothing hthread rfl, ledger_touch]
  · exact ledger_touch s chan

private theorem writeCommand_setThread_ledger {p : Ptr} {para : CodecParam} {pc : Pc}
    (hold : (s.threads t).holding = .nothing) (hnew : pc.holding = .nothing) :
    ((s.writeCommand p para).setThread t pc).ledger = s.ledger := by
  obtain ⟨commands, heq⟩ := writeCommand_eq s p para
  have hledger : (s.writeCommand p para).ledger = s.ledger := by
    rw [heq]
    rfl
  rw [ledger_setThread, hledger, hnew]
  exact Ledger.put_eq_self hold

private theorem updateParam_setThread_ledger {p : Ptr} {update : ChanMediaParam → ChanMediaParam}
    {pc : Pc} (hold : (s.threads t).holding = .nothing) (hnew : pc.holding = .nothing) :
    ((s.updateParam p update).setThread t pc).ledger = s.ledger := by
  rw [ledger_setThread, ledger_updateParam, hnew]
  exact Ledger.put_eq_self hold

private theorem createFork_refines {fpid : Int} (h : s.createFork t fpid = some s') :
    s.ledger.Step s'.ledger := by
  obtain ⟨channel, param, hchecked, ⟨rfl, rfl⟩ | ⟨hpos, hfree, rfl⟩⟩ := createFork_cases h
  · have hthread : s.ledger.holding (.thread t) = .nothing := holding_thread hchecked
    rw [ledger_setThread]
    exact .forkFailed t channel hthread
  · have hthread : s.ledger.holding (.thread t) = .nothing := holding_thread hchecked
    rw [ledger_setThread, ledger_setChild]
    refine .fork t channel fpid hthread hpos fun c hc => ?_
    obtain ⟨child, hchild, rfl⟩ := Option.map_eq_some_iff.mp hc
    exact hfree child hchild

private theorem createBuild_refines (h : s.createBuild t = some s') :
    s.ledger.Step s'.ledger := by
  obtain ⟨channel, param, fpid, hforked, rfl⟩ := createBuild_cases h
  have hthread : s.ledger.holding (.thread t) = .forked channel fpid := holding_thread hforked
  have hbuilt := Ledger.Step.build t channel fpid hthread
  have hheap := ledger_setHeap s s.nextPtr (some ⟨fpid, fifoPath channel, channel, param⟩)
  have hnext := ledger_nextPtr (s.setHeap s.nextPtr
    (some ⟨fpid, fifoPath channel, channel, param⟩)) (s.nextPtr + 1)
  rw [ledger_setThread, hnext, hheap]
  exact hbuilt

private theorem createInsert_refines (h : s.createInsert t = some s') :
    s.ledger.Step s'.ledger := by
  obtain ⟨-, channel, p, hbuilt, rfl⟩ := createInsert_cases h
  have hthread : s.ledger.holding (.thread t) = .channel channel p := holding_thread hbuilt
  have hentry : ledger { s with chanMap := s.chanMap.insert channel (some p) } =
      s.ledger.put (.entry channel) (.channel channel p) := by
    rw [ledger_chanMap fun k hk => Finmap.lookup_insert_of_ne s.chanMap hk, Finmap.lookup_insert]
    rfl
  have hinserted := Ledger.Step.insert t channel p hthread
  rw [Ledger.put_comm (by simp), ← hentry] at hinserted
  rw [ledger_setThread]
  exact hinserted

private theorem workerTake_refines (h : s.workerTake = some s') :
    s.ledger.Step s'.ledger := by
  obtain ⟨-, chanId, hpopped, ⟨p, hfound, rfl⟩ | ⟨-, rfl⟩⟩ := workerTake_cases h
  · have hidle : s.ledger.holding .worker = .nothing := holding_worker hpopped
    have hheld : s.ledger.holding (.entry chanId) = .channel chanId p := holding_entry hfound
    have hother (k : String) (hk : k ≠ chanId) :
        ((s.chanMap.subscript chanId).2.erase chanId).lookup k = s.chanMap.lookup k := by
      rw [Finmap.lookup_erase_ne hk, ChanMap.lookup_subscript, if_neg hk]
    have hentry : ledger { s with chanMap := (s.chanMap.subscript chanId).2.erase chanId } =
        s.ledger.put (.entry chanId) .nothing := by
      rw [ledger_chanMap hother, Finmap.lookup_erase]
      rfl
    have hworker := ledger_worker { s with chanMap := (s.chanMap.subscript chanId).2.erase chanId }
      (.taken chanId p)
    rw [hentry] at hworker
    have htaken := Ledger.Step.take chanId p hheld hidle
    exact (congrArg (fun l => s.ledger.Step { l with live := s.live.erase chanId }) hworker).mpr
      htaken
  · have hidle : (s.touch chanId).ledger.holding .worker = .nothing :=
      holding_worker hpopped
    have hworker := (ledger_worker (s.touch chanId) .idle).trans (Ledger.put_eq_self hidle)
    rw [hworker, ledger_touch]
    exact .stutter

private theorem workerWait_refines {ret : Int} (h : s.workerWait ret = some s') :
    s.ledger.Step s'.ledger ∨ s.ledger.Stray s'.ledger := by
  obtain ⟨chanId, p, c, r, hkilled, hheap, hwait, hpc⟩ := workerWait_cases h
  have hheld : s.ledger.holding .worker = .channel chanId p := holding_worker hkilled
  have hpid : s.ledger.record p = some c.pid := record_of_heap hheap
  have hwaited := ledger_worker r (.waited chanId p)
  have hidle := ledger_worker r .idle
  rcases waitpid_cases hwait with ⟨hfailed, rfl⟩ | ⟨hreturns, child, hchild, -, hwaits, rfl⟩
  · rcases hpc with ⟨hret, rfl⟩ | ⟨hret, rfl⟩
    · rw [hwaited]
      exact Or.inl (.spend chanId p hheld (by rw [hpid, ← hret, hfailed]))
    · rw [hidle]
      exact Or.inl (.lose chanId p hheld)
  · have hview : s.ledger.child ret = some child.view := view_of_child hchild
    have hreaped := ledger_setChild s ret { child with reaped := true }
    rcases hpc with ⟨rfl, rfl⟩ | ⟨hret, rfl⟩
    · rw [hwaited, hreaped]
      exact Or.inl (.reap chanId p c.pid child.view hheld hpid hview)
    · have hall : c.pid = -1 := hwaits.resolve_right (Ne.symm hret)
      rw [hidle, hreaped]
      exact Or.inr (.reap chanId p ret child.view hheld (by rw [hpid, hall]) hview)

private theorem workerDelete_refines (h : s.workerDelete = some s') :
    s.ledger.Step s'.ledger := by
  obtain ⟨chanId, p, hunlinked, rfl⟩ := workerDelete_cases h
  have hheld : s.ledger.holding .worker = .spent p := holding_worker hunlinked
  have hidle := ledger_worker s .idle
  rw [ledger_setHeap, hidle]
  exact .delete p hheld

end Manager

/-- Every step of the manager is a step of the ledger, but for a `waitpid` that reaps a stray child. -/
theorem step_refines {s s' : Manager} {e : Event} (h : step s e = some s') :
    s.ledger.Step s'.ledger ∨ ((∃ ret, e = .workerWait ret) ∧ s.ledger.Stray s'.ledger) := by
  have hquiet (heq : s'.ledger = s.ledger) : s.ledger.Step s'.ledger := by
    rw [heq]
    exact .stutter
  cases e with
  | createCheck t channel param => exact Or.inl (hquiet (Manager.createCheck_ledger h))
  | createFork t fpid => exact Or.inl (Manager.createFork_refines h)
  | createBuild t made => exact Or.inl (Manager.createBuild_refines h)
  | createInsert t => exact Or.inl (Manager.createInsert_refines h)
  | childFifo pid made => exact Or.inl (hquiet (Manager.childFifo_ledger h))
  | delChannel channle =>
      obtain ⟨-, rfl⟩ := Manager.delChannel_cases h
      exact Or.inl (hquiet rfl)
  | workerPop => exact Or.inl (hquiet (Manager.workerPop_ledger h))
  | workerTake => exact Or.inl (Manager.workerTake_refines h)
  | workerKill => exact Or.inl (hquiet (Manager.workerKill_ledger h))
  | workerWait ret => exact (Manager.workerWait_refines h).imp_right fun hstray => ⟨⟨ret, rfl⟩, hstray⟩
  | workerUnlink => exact Or.inl (hquiet (Manager.workerUnlink_ledger h))
  | workerDelete => exact Or.inl (Manager.workerDelete_refines h)
  | codecLookup t channel rate resolution maxBitrate =>
      exact Or.inl (hquiet (Manager.codecLookup_ledger h))
  | codecWrite t =>
      obtain ⟨p, para, hfound, rfl⟩ := Manager.codecWrite_cases h
      exact Or.inl (hquiet
        (Manager.writeCommand_setThread_ledger (congrArg Pc.holding hfound) rfl))
  | codecUpdate t =>
      obtain ⟨p, para, hwritten, rfl⟩ := Manager.codecUpdate_cases h
      exact Or.inl (hquiet
        (Manager.updateParam_setThread_ledger (congrArg Pc.holding hwritten) rfl))
  | presetLookup t chan param => exact Or.inl (hquiet (Manager.presetLookup_ledger h))
  | presetWrite t =>
      obtain ⟨p, param, hfound, rfl⟩ := Manager.presetWrite_cases h
      exact Or.inl (hquiet
        (Manager.writeCommand_setThread_ledger (congrArg Pc.holding hfound) rfl))
  | presetUpdate t =>
      obtain ⟨p, param, hwritten, rfl⟩ := Manager.presetUpdate_cases h
      exact Or.inl (hquiet
        (Manager.updateParam_setThread_ledger (congrArg Pc.holding hwritten) rfl))

/-- Records are safe in every run, whatever becomes of the children. -/
theorem recordsOk_step {s s' : Manager} {e : Event} (hs : s.ledger.RecordsOk)
    (h : step s e = some s') : s'.ledger.RecordsOk := by
  rcases step_refines h with hstep | ⟨-, hstray⟩
  · exact hs.step hstep
  · exact hs.stray hstray

theorem init_recordsOk : Manager.init.ledger.RecordsOk := by
  have hholding (a : Place) : Manager.init.ledger.holding a = .nothing := by
    cases a <;> rfl
  refine ⟨?_, ?_, fun p hp => rfl, ?_⟩
  · intro a b p ha
    cases (congrArg Holding.ptr (hholding a)).symm.trans ha
  · intro a p ha
    cases (congrArg Holding.ptr (hholding a)).symm.trans ha
  · intro key
    rw [hholding (.entry key)]
    simp [Manager.init, Manager.ledger]

end GMProxy.TdChannel
