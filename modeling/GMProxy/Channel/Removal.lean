import GMProxy.Channel.Frame
import GMProxy.Library.Machine

/-!
# The removal of a channel

A request for a mapped channel is followed through the queue and the passes of the deletion worker.
-/

namespace GMProxy.TdChannel

open Machine

variable {s s' : Manager} {e : Event} {channel : String} {p : Ptr} {pid : Int}

namespace Manager

/-- `waitpid` returns the pid that it is given. -/
def WaitReturns (s : Manager) : Event → Prop
  | .workerWait ret => ∀ chanId p c, s.worker = .killed chanId p → s.heap p = some c → ret = c.pid
  | _ => True

/-- The name is mapped to no `Channel`. -/
def Unmapped (s : Manager) (channel : String) : Prop :=
  ∀ p, s.chanMap.lookup channel ≠ some (some p)

/-- The name is mapped to no `Channel`, and the child has been signalled and reaped. -/
def Removed (s : Manager) (channel : String) (pid : Int) : Prop :=
  s.Unmapped channel ∧ ∃ child, s.children pid = some child ∧ 0 < child.signals ∧ child.reaped = true

/-- How far the removal of a channel has come. -/
inductive Stage (s : Manager) (channel : String) (p : Ptr) (pid : Int) : Prop
  | requested (hentry : s.chanMap.lookup channel = some (some p))
      (hrecord : s.ledger.record p = some pid)
      (hrequest : channel ∈ s.delChanList ∨ s.worker = .popped channel)
  | taken (hunmapped : s.Unmapped channel) (hrecord : s.ledger.record p = some pid)
      (hworker : s.worker = .taken channel p)
  | killed (hunmapped : s.Unmapped channel) (hrecord : s.ledger.record p = some pid)
      (hworker : s.worker = .killed channel p)
      (hsignals : ∀ child, s.children pid = some child → child.reaped = false → 0 < child.signals)
  | removed (hremoved : s.Removed channel pid)

/-- Records are safe, a child has a positive pid, and the worker takes up no empty name. -/
structure Sound (s : Manager) : Prop where
  records : s.ledger.RecordsOk
  children : ∀ pid child, s.children pid = some child → 0 < pid
  popped : s.worker ≠ .popped ""

/-- What becomes of a child. -/
structure Ages (child child' : Child) : Prop where
  signals : child.signals ≤ child'.signals
  reaped : child.reaped = true → child'.reaped = true

theorem ages_refl (child : Option Child) : Option.Rel Ages child child := by
  cases child with
  | none => exact .none
  | some child => exact .some ⟨Nat.le_refl _, id⟩

theorem setChild_ages {q : Int} {child child' : Child} (hq : s.children q = some child)
    (hages : Ages child child') (pid : Int) :
    Option.Rel Ages (s.children pid) ((s.setChild q child').children pid) := by
  by_cases hpid : pid = q
  · have hself : (s.setChild q child').children q = some child' := Function.update_self ..
    rw [hpid, hq, hself]
    exact .some hages
  · rw [setChild_other hpid]
    exact ages_refl _

theorem kill_ages (s : Manager) (q pid : Int) :
    Option.Rel Ages (s.children pid) ((s.kill q).children pid) := by
  have hkill : (s.kill q).children pid = (s.children pid).map fun child =>
      if (q = -1 ∨ q = pid) ∧ ¬ child.reaped then { child with signals := child.signals + 1 }
      else child := rfl
  rw [hkill]
  cases s.children pid with
  | none => exact .none
  | some child =>
      apply Option.Rel.some
      beta_reduce
      split
      · exact ⟨Nat.le_succ _, id⟩
      · exact ⟨Nat.le_refl _, id⟩

/-- A child that is not reaped gets the signal. -/
theorem kill_signals {child : Child} (hchild : (s.kill pid).children pid = some child)
    (hreaped : child.reaped = false) : 0 < child.signals := by
  obtain ⟨old, -, hold⟩ := Option.map_eq_some_iff.mp hchild
  by_cases hkill : (pid = -1 ∨ pid = pid) ∧ ¬ old.reaped
  · rw [if_pos hkill] at hold
    rw [← hold]
    exact Nat.succ_pos _
  · rw [if_neg hkill] at hold
    rw [hold, hreaped] at hkill
    simp at hkill

/-- Without a `fork` the children stay, and they only age. -/
theorem child_step (h : step s e = some s') (hfork : ∀ t fpid, e ≠ .createFork t fpid) (pid : Int) :
    Option.Rel Ages (s.children pid) (s'.children pid) := by
  cases e with
  | createFork t fpid => exact absurd rfl (hfork t fpid)
  | childFifo q made =>
      obtain ⟨child, hq, rfl⟩ := childFifo_cases h
      have hages : Ages child { child with started := true } := ⟨Nat.le_refl _, id⟩
      exact setChild_ages hq hages pid
  | workerKill =>
      obtain ⟨chanId, p, c, -, -, rfl⟩ := workerKill_cases h
      exact kill_ages s c.pid pid
  | workerWait ret =>
      obtain ⟨chanId, p, c, r, -, -, hwait, hpc⟩ := workerWait_cases h
      have hchildren : s'.children = r.children := by
        rcases hpc with ⟨-, rfl⟩ | ⟨-, rfl⟩
        · rfl
        · rfl
      rw [hchildren]
      rcases waitpid_cases hwait with ⟨-, rfl⟩ | ⟨-, child, hchild, -, -, rfl⟩
      · exact ages_refl _
      · have hages : Ages child { child with reaped := true } := ⟨Nat.le_refl _, fun _ => rfl⟩
        exact setChild_ages hchild hages pid
  | _ =>
      rw [(step_frame h).children rfl]
      exact ages_refl _

theorem unmapped_step (h : step s e = some s') (hcreate : e.isCreate = false)
    (hunmapped : s.Unmapped channel) : s'.Unmapped channel := by
  intro p hp
  rcases entry_step h hp with hold | ⟨u, rfl, -⟩
  · exact hunmapped p hold
  · cases hcreate

/-- A record keeps its pid as long as the worker is not about to free it. -/
theorem pid_kept (hrec : s.ledger.RecordsOk) (h : step s e = some s')
    (hheld : s.ledger.holding .worker ≠ .spent p) (hrecord : s.ledger.record p = some pid) :
    s'.ledger.record p = some pid := by
  have hp : s.ledger.record p ≠ none := by
    rw [hrecord]
    exact Option.some_ne_none _
  rcases record_step h (hrec.lt_next hp) with hkept | ⟨-, hspent, -⟩
  · rw [hkept, hrecord]
  · exact absurd hspent hheld

theorem Sound.step (hs : s.Sound) (h : step s e = some s') : s'.Sound where
  records := recordsOk_step hs.records h
  children := by
    intro pid child hchild
    by_cases hfork : ∀ t fpid, e ≠ .createFork t fpid
    · have hages := child_step h hfork pid
      cases hold : s.children pid with
      | none =>
          rw [hold, hchild] at hages
          cases hages
      | some old => exact hs.children pid old hold
    · push Not at hfork
      obtain ⟨t, fpid, rfl⟩ := hfork
      obtain ⟨name, param, -, ⟨-, rfl⟩ | ⟨hpos, -, rfl⟩⟩ := createFork_cases h
      · exact hs.children pid child hchild
      · by_cases hpid : pid = fpid
        · rw [hpid]
          exact hpos
        · have hother : s.children pid = some child := (setChild_other hpid).symm.trans hchild
          exact hs.children pid child hother
  popped := by
    intro hpopped
    have hmove := worker_move h
    have hold := hs.popped
    rw [hpopped] at hmove
    generalize s.worker = w at hmove hold
    cases hmove with
    | stays _ => exact hold rfl
    | pops hname => exact hname rfl

theorem init_sound : Manager.init.Sound where
  records := init_recordsOk
  children := by
    intro pid child hchild
    cases hchild
  popped := nofun

/-- A mapped channel is not what the worker is about to free. -/
theorem not_spent_of_entry (hrec : s.ledger.RecordsOk)
    (hentry : s.chanMap.lookup channel = some (some p)) : s.ledger.holding .worker ≠ .spent p := by
  intro hspent
  have hptr : (s.ledger.holding (.entry channel)).ptr = some p :=
    congrArg Holding.ptr (holding_entry hentry)
  have hplace := hrec.exclusive (.entry channel) .worker p hptr (congrArg Holding.ptr hspent)
  cases hplace

/-- A request is at hand until the worker looks its channel up. -/
theorem request_step (h : step s e = some s') (hname : channel ≠ "")
    (htake : ¬ (e = .workerTake ∧ s.worker = .popped channel))
    (hrequest : channel ∈ s.delChanList ∨ s.worker = .popped channel) :
    channel ∈ s'.delChanList ∨ s'.worker = .popped channel := by
  cases hrequest with
  | inl hqueued =>
      cases e with
      | delChannel channle =>
          obtain ⟨-, rfl⟩ := delChannel_cases h
          exact Or.inl (List.mem_cons_of_mem _ hqueued)
      | workerPop =>
          obtain ⟨-, -, ⟨-, rfl⟩ | ⟨chanId, rest, hlist, hpopped⟩⟩ := workerPop_cases h
          · exact Or.inl hqueued
          · rw [hlist, List.mem_cons] at hqueued
            rcases hpopped with ⟨hempty, rfl⟩ | ⟨-, rfl⟩
            · exact Or.inl (hqueued.resolve_left fun heq => hname (heq.trans hempty))
            · rcases hqueued with rfl | hrest
              · exact Or.inr rfl
              · exact Or.inl hrest
      | _ =>
          left
          rw [(step_frame h).requests rfl]
          exact hqueued
  | inr hpopped =>
      right
      have hstays : s.worker.takes e = false := by
        rw [hpopped]
        cases e with
        | workerTake => exact absurd ⟨rfl, hpopped⟩ htake
        | _ => rfl
      rw [worker_kept h hstays, hpopped]

theorem requested_step (hs : s.Sound) (h : step s e = some s') (hname : channel ≠ "")
    (hcreate : e.isCreate = false) (hentry : s.chanMap.lookup channel = some (some p))
    (hrecord : s.ledger.record p = some pid)
    (hrequest : channel ∈ s.delChanList ∨ s.worker = .popped channel) : s'.Stage channel p pid := by
  have hrecord' := pid_kept hs.records h (not_spent_of_entry hs.records hentry) hrecord
  by_cases htake : e = .workerTake ∧ s.worker = .popped channel
  · obtain ⟨rfl, hpopped⟩ := htake
    obtain ⟨-, chanId, hpopped', ⟨q, hfound, rfl⟩ | ⟨hnull, -⟩⟩ := workerTake_cases h
    · obtain rfl := WorkerPc.popped.inj (hpopped'.symm.trans hpopped)
      obtain rfl := Option.some.inj (Option.some.inj (hfound.symm.trans hentry))
      refine .taken (fun q hq => ?_) hrecord' rfl
      rw [Finmap.lookup_erase] at hq
      cases hq
    · obtain rfl := WorkerPc.popped.inj (hpopped'.symm.trans hpopped)
      rw [ChanMap.subscript_eq_some.mpr hentry] at hnull
      cases hnull
  · rcases entry_kept h hentry with hkept | ⟨rfl, hpopped, -⟩ | ⟨u, q, rfl, -⟩
    · exact .requested hkept hrecord' (request_step h hname htake hrequest)
    · exact absurd ⟨rfl, hpopped⟩ htake
    · cases hcreate

theorem taken_step (hs : s.Sound) (h : step s e = some s') (hcreate : e.isCreate = false)
    (hunmapped : s.Unmapped channel) (hrecord : s.ledger.record p = some pid)
    (hworker : s.worker = .taken channel p) : s'.Stage channel p pid := by
  have hunmapped' := unmapped_step h hcreate hunmapped
  have hheld : s.ledger.holding .worker = .channel channel p := holding_worker hworker
  have hrecord' := pid_kept hs.records h (by rw [hheld]; exact nofun) hrecord
  cases e with
  | workerKill =>
      obtain ⟨chanId, q, c, htaken, hheap, rfl⟩ := workerKill_cases h
      obtain ⟨rfl, rfl⟩ := WorkerPc.taken.inj (hworker.symm.trans htaken)
      have hpid : pid = c.pid := Option.some.inj (hrecord.symm.trans (record_of_heap hheap))
      refine .killed hunmapped' hrecord' rfl fun child hchild hreaped => ?_
      rw [hpid] at hchild
      exact kill_signals hchild hreaped
  | _ => exact .taken hunmapped' hrecord' ((worker_kept h (by rw [hworker]; rfl)).trans hworker)

theorem signals_step (h : step s e = some s') (hcreate : e.isCreate = false)
    (hsignals : ∀ child, s.children pid = some child → child.reaped = false → 0 < child.signals) :
    ∀ child, s'.children pid = some child → child.reaped = false → 0 < child.signals := by
  have hfork : ∀ t fpid, e ≠ .createFork t fpid := by
    rintro t fpid rfl
    cases hcreate
  intro child hchild hreaped
  have hages := child_step h hfork pid
  rw [hchild] at hages
  cases hold : s.children pid with
  | none =>
      rw [hold] at hages
      cases hages
  | some old =>
      rw [hold] at hages
      cases hages with
      | some hages =>
          have halive : old.reaped = false := by
            by_contra hdead
            rw [hages.reaped (by simpa using hdead)] at hreaped
            cases hreaped
          exact Nat.lt_of_lt_of_le (hsignals old hold halive) hages.signals

theorem removed_step (h : step s e = some s') (hcreate : e.isCreate = false)
    (hremoved : s.Removed channel pid) : s'.Removed channel pid := by
  obtain ⟨hunmapped, child, hchild, hsignals, hreaped⟩ := hremoved
  have hfork : ∀ t fpid, e ≠ .createFork t fpid := by
    rintro t fpid rfl
    cases hcreate
  refine ⟨unmapped_step h hcreate hunmapped, ?_⟩
  have hages := child_step h hfork pid
  rw [hchild] at hages
  cases hnew : s'.children pid with
  | none =>
      rw [hnew] at hages
      cases hages
  | some new =>
      rw [hnew] at hages
      cases hages with
      | some hages =>
          exact ⟨new, rfl, Nat.lt_of_lt_of_le hsignals hages.signals, hages.reaped hreaped⟩

theorem killed_step (hs : s.Sound) (h : step s e = some s') (hcreate : e.isCreate = false)
    (hwait : s.WaitReturns e) (hpid : pid ≠ -1) (hunmapped : s.Unmapped channel)
    (hrecord : s.ledger.record p = some pid) (hworker : s.worker = .killed channel p)
    (hsignals : ∀ child, s.children pid = some child → child.reaped = false → 0 < child.signals) :
    s'.Stage channel p pid := by
  have hunmapped' := unmapped_step h hcreate hunmapped
  have hheld : s.ledger.holding .worker = .channel channel p := holding_worker hworker
  have hrecord' := pid_kept hs.records h (by rw [hheld]; exact nofun) hrecord
  have hsignals' := signals_step h hcreate hsignals
  cases e with
  | workerWait ret =>
      obtain ⟨chanId, q, c, r, hkilled, hheap, hret, hpc⟩ := workerWait_cases h
      obtain ⟨rfl, rfl⟩ := WorkerPc.killed.inj (hworker.symm.trans hkilled)
      have hrecorded : pid = c.pid := Option.some.inj (hrecord.symm.trans (record_of_heap hheap))
      have hreturns : ret = pid := (hwait _ _ c hkilled hheap).trans hrecorded.symm
      have hchildren : s'.children = r.children := by
        rcases hpc with ⟨-, rfl⟩ | ⟨-, rfl⟩
        · rfl
        · rfl
      rcases waitpid_cases hret with ⟨hfailed, -⟩ | ⟨-, child, hchild, halive, -, rfl⟩
      · exact absurd (hreturns.symm.trans hfailed) hpid
      · rw [hreturns] at hchild hchildren
        refine .removed ⟨hunmapped', { child with reaped := true }, ?_, hsignals child hchild halive, rfl⟩
        rw [hchildren]
        exact Function.update_self ..
  | _ =>
      have hkept := worker_kept h (by rw [hworker]; rfl)
      exact .killed hunmapped' hrecord' (hkept.trans hworker) hsignals'

/-- A removal does not go back, and the worker does not lose it. -/
theorem Stage.step (hs : s.Sound) (h : step s e = some s') (hcreate : e.isCreate = false)
    (hwait : s.WaitReturns e) (hname : channel ≠ "") (hpid : pid ≠ -1)
    (hstage : s.Stage channel p pid) : s'.Stage channel p pid := by
  cases hstage with
  | requested hentry hrecord hrequest =>
      exact requested_step hs h hname hcreate hentry hrecord hrequest
  | taken hunmapped hrecord hworker => exact taken_step hs h hcreate hunmapped hrecord hworker
  | killed hunmapped hrecord hworker hsignals =>
      exact killed_step hs h hcreate hwait hpid hunmapped hrecord hworker hsignals
  | removed hremoved => exact .removed (removed_step h hcreate hremoved)

/-- When the worker has nothing left to do, the removal is complete. -/
theorem Stage.removed_of_drained (hstage : s.Stage channel p pid) (hidle : s.worker = .idle)
    (hlist : s.delChanList = []) : s.Removed channel pid := by
  cases hstage with
  | requested hentry hrecord hrequest =>
      cases hrequest with
      | inl hqueued =>
          rw [hlist] at hqueued
          cases hqueued
      | inr hpopped => cases hidle.symm.trans hpopped
  | taken hunmapped hrecord hworker => cases hidle.symm.trans hworker
  | killed hunmapped hrecord hworker hsignals => cases hidle.symm.trans hworker
  | removed hremoved => exact hremoved

/-- Nothing takes a channel with the empty name out of the table. -/
theorem emptyName_kept (hs : s.Sound) (h : step s e = some s')
    (hcreate : e.isCreate = false) (hentry : s.chanMap.lookup "" = some (some p)) :
    s'.chanMap.lookup "" = some (some p) := by
  rcases entry_kept h hentry with hkept | ⟨-, hpopped, -⟩ | ⟨u, q, rfl, -⟩
  · exact hkept
  · exact absurd hpopped hs.popped
  · cases hcreate

end Manager

theorem sound_of_run {events : List Event} (h : run step Manager.init events = some s) : s.Sound :=
  (statesHold_of_invariant (fun _ _ _ hs hstep => hs.step hstep) Manager.init_sound).last h

/-- A channel that is in the table of a reachable state is removed by a request and the passes of the
worker that follow it exactly if its name is not empty and its `fork` had not failed. -/
theorem channel_removed_iff {before events : List Event} {c : Channel}
    (hbefore : run step Manager.init before = some s)
    (hentry : s.chanMap.lookup channel = some (some p)) (hheap : s.heap p = some c)
    (hcreate : ∀ e ∈ events, e.isCreate = false)
    (hwait : StepsMeet step Manager.WaitReturns s (.delChannel channel :: events))
    (hrun : run step s (.delChannel channel :: events) = some s')
    (hidle : s'.worker = .idle) (hlist : s'.delChanList = []) :
    s'.Removed channel c.pid ↔ channel ≠ "" ∧ c.pid ≠ -1 := by
  have hs := sound_of_run hbefore
  obtain ⟨s₁, hrequest, hrest⟩ := Option.bind_eq_some_iff.mp hrun
  have hs₁ := hs.step hrequest
  have hcreates : StepsMeet step (fun _ e => e.isCreate = false) s₁ events :=
    stepsMeet_of_forall fun _ e he => hcreate e he
  have hmeet := (hwait s₁ hrequest).2.and hcreates
  obtain ⟨-, rfl⟩ := Manager.delChannel_cases hrequest
  constructor
  · intro hremoved
    obtain ⟨hunmapped, child, hchild, -, -⟩ := hremoved
    constructor
    · rintro rfl
      have hkept := hmeet.statesHold
        (P := fun s => s.Sound ∧ s.chanMap.lookup "" = some (some p))
        (fun s e s' hs hC hstep => ⟨hs.1.step hstep, Manager.emptyName_kept hs.1 hstep hC.2 hs.2⟩)
        ⟨hs₁, hentry⟩
      exact hunmapped p (hkept.last hrest).2
    · intro hfailed
      have hsound : StatesHold step Manager.Sound _ events :=
        statesHold_of_invariant (fun _ _ _ hs hstep => Manager.Sound.step hs hstep) hs₁
      have hpos := (hsound.last hrest).children _ child hchild
      omega
  · rintro ⟨hname, hpid⟩
    have hstage := hmeet.statesHold
      (P := fun s => s.Sound ∧ s.Stage channel p c.pid)
      (fun s e s' hs hC hstep =>
        ⟨hs.1.step hstep, hs.2.step hs.1 hstep hC.2 hC.1 hname hpid⟩)
      ⟨hs₁, .requested hentry (Manager.record_of_heap hheap) (Or.inl (List.mem_cons_self ..))⟩
    exact (hstage.last hrest).2.removed_of_drained hidle hlist

theorem channelX_removed :
    ∃ s s', run step Manager.init (creation "x" 7) = some s ∧
      run step s (.delChannel "x" :: removal 7) = some s' ∧ s'.Removed "x" 7 := by
  have hbefore : run step Manager.init (creation "x" 7) = some _ := rfl
  have hcreate : ∀ e ∈ removal 7, e.isCreate = false := by simp [removal, waiting, Event.isCreate]
  refine ⟨_, _, hbefore, rfl, (channel_removed_iff (p := 0) (c := ⟨7, "/tmp/x", "x", {}⟩) hbefore
    rfl rfl hcreate ?_ rfl rfl rfl).mpr ⟨by decide, by decide⟩⟩
  apply (stepsMeet_cons rfl).mpr ⟨trivial, _⟩
  apply (stepsMeet_cons rfl).mpr ⟨trivial, _⟩
  apply (stepsMeet_cons rfl).mpr ⟨trivial, _⟩
  apply (stepsMeet_cons rfl).mpr ⟨trivial, _⟩
  refine (stepsMeet_cons rfl).mpr ⟨?_, fun _ _ => ⟨trivial, fun _ _ => ⟨trivial, trivial⟩⟩⟩
  intro chanId p c hkilled hheap
  obtain ⟨rfl, rfl⟩ := WorkerPc.killed.inj hkilled
  obtain rfl := Option.some.inj hheap
  rfl

/-- A channel with the empty name: the request is dropped, and the channel stays. -/
theorem emptyName_not_removed :
    ∃ s s', run step Manager.init (creation "" 7) = some s ∧
      s.chanMap.lookup "" = some (some 0) ∧ s.heap 0 = some ⟨7, "/tmp/", "", {}⟩ ∧
      run step s (.delChannel "" :: [.workerPop]) = some s' ∧
      StepsMeet step Manager.WaitReturns s (.delChannel "" :: [.workerPop]) ∧
      s'.worker = .idle ∧ s'.delChanList = [] ∧ ¬ s'.Removed "" 7 := by
  refine ⟨_, _, rfl, rfl, rfl, rfl, ?_, rfl, rfl, ?_⟩
  · exact fun _ _ => ⟨trivial, fun _ _ => ⟨trivial, trivial⟩⟩
  · intro hremoved
    exact hremoved.1 0 rfl

end GMProxy.TdChannel
