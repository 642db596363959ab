import GMProxy.Channel.Manager

/-!
# What each operation of the manager can do

One inversion lemma for each step that takes part in the life of a channel: what it needs and what
state it leads to.
-/

namespace GMProxy.TdChannel

/-- The state after `chanMap[key]`. -/
def Manager.touch (s : Manager) (key : String) : Manager :=
  { s with chanMap := (s.chanMap.subscript key).2 }

namespace ChanMap

variable {m : ChanMap} {key k : String} {p : Ptr}

theorem lookup_subscript (m : ChanMap) (key k : String) :
    (m.subscript key).2.lookup k = if k = key then some (m.subscript key).1 else m.lookup k := by
  unfold ChanMap.subscript
  by_cases hk : k = key
  · subst hk
    rw [if_pos rfl]
    cases hkey : m.lookup k with
    | some entry => exact hkey
    | none => exact Finmap.lookup_insert m
  · rw [if_neg hk]
    cases m.lookup key with
    | some entry => rfl
    | none => exact Finmap.lookup_insert_of_ne m hk

theorem subscript_eq_some : (m.subscript key).1 = some p ↔ m.lookup key = some (some p) := by
  unfold ChanMap.subscript
  cases hkey : m.lookup key with
  | some entry => simp
  | none => simp

theorem subscript_eq_none :
    (m.subscript key).1 = none ↔ m.lookup key = none ∨ m.lookup key = some none := by
  unfold ChanMap.subscript
  cases hkey : m.lookup key with
  | some entry => simp
  | none => simp

end ChanMap

namespace Manager

variable {s s' : Manager} {t : Nat}

theorem setThread_self {pc : Pc} : (s.setThread t pc).threads t = pc :=
  Function.update_self ..

theorem setChild_other {pid q : Int} {child : Child} (hq : q ≠ pid) :
    (s.setChild pid child).children q = s.children q :=
  Function.update_of_ne hq ..

private theorem entered {locked : Bool} {body : Option Manager}
    (h : (if locked = true then none else body) = some s') :
    locked = false ∧ body = some s' := by
  cases locked with
  | true => cases h
  | false => exact ⟨rfl, h⟩

theorem createCheck_cases {channel : String} {param : ChanMediaParam}
    (h : s.createCheck t channel param = some s') :
    s.chanMapLocked = false ∧ s.threads t = .idle ∧
      (((∃ p, s.chanMap.lookup channel = some (some p)) ∧ s' = s.touch channel) ∨
        ((s.chanMap.subscript channel).1 = none ∧
          s' = (s.touch channel).setThread t (.createChecked channel param))) := by
  unfold createCheck at h
  obtain ⟨hfree, h⟩ := entered h
  cases hpc : s.threads t with
  | idle =>
      refine ⟨hfree, rfl, ?_⟩
      cases hsub : (s.chanMap.subscript channel).1 with
      | some p =>
          simp only [hpc, hsub, Option.some.injEq] at h
          exact Or.inl ⟨⟨p, ChanMap.subscript_eq_some.mp hsub⟩, h.symm⟩
      | none =>
          simp only [hpc, hsub, Option.some.injEq] at h
          exact Or.inr ⟨rfl, h.symm⟩
  | _ => simp [hpc] at h

theorem createFork_cases {fpid : Int} (h : s.createFork t fpid = some s') :
    ∃ channel param, s.threads t = .createChecked channel param ∧
      ((fpid = -1 ∧ s' = s.setThread t (.createForked channel param fpid)) ∨
        (0 < fpid ∧ (∀ child, s.children fpid = some child → child.reaped = true) ∧
          s' = (s.setChild fpid ⟨channel, 0, false, false⟩).setThread t
            (.createForked channel param fpid))) := by
  unfold createFork at h
  cases hpc : s.threads t with
  | createChecked channel param =>
      simp only [hpc] at h
      refine ⟨channel, param, rfl, ?_⟩
      by_cases hfailed : fpid = -1
      · rw [if_pos hfailed] at h
        exact Or.inl ⟨hfailed, (Option.some.inj h).symm⟩
      · rw [if_neg hfailed] at h
        by_cases hfree : 0 < fpid ∧ ∀ child ∈ s.children fpid, child.reaped
        · rw [if_pos hfree] at h
          exact Or.inr ⟨hfree.1, hfree.2, (Option.some.inj h).symm⟩
        · rw [if_neg hfree] at h
          cases h
  | _ => simp [hpc] at h

theorem createBuild_cases (h : s.createBuild t = some s') :
    ∃ channel param fpid, s.threads t = .createForked channel param fpid ∧
      s' = { s.setHeap s.nextPtr (some ⟨fpid, fifoPath channel, channel, param⟩) with
        nextPtr := s.nextPtr + 1 }.setThread t (.createBuilt channel s.nextPtr) := by
  unfold createBuild at h
  cases hpc : s.threads t with
  | createForked channel param fpid =>
      simp only [hpc, Option.some.injEq] at h
      exact ⟨channel, param, fpid, rfl, h.symm⟩
  | _ => simp [hpc] at h

theorem createInsert_cases (h : s.createInsert t = some s') :
    s.chanMapLocked = false ∧ ∃ channel p, s.threads t = .createBuilt channel p ∧
      s' = { s with
        chanMap := s.chanMap.insert channel (some p)
        live := insert channel s.live }.setThread t .idle := by
  unfold createInsert at h
  obtain ⟨hfree, h⟩ := entered h
  cases hpc : s.threads t with
  | createBuilt channel p =>
      simp only [hpc, Option.some.injEq] at h
      exact ⟨hfree, channel, p, rfl, h.symm⟩
  | _ => simp [hpc] at h

theorem childFifo_cases {pid : Int} (h : s.childFifo pid = some s') :
    ∃ child, s.children pid = some child ∧
      s' = s.setChild pid { child with started := true } := by
  unfold childFifo at h
  cases hchild : s.children pid with
  | none => simp [hchild] at h
  | some child =>
      simp only [hchild] at h
      by_cases hdone : child.started = true ∨ child.reaped = true
      · rw [if_pos hdone] at h
        cases h
      · rw [if_neg hdone] at h
        exact ⟨child, rfl, (Option.some.inj h).symm⟩

theorem delChannel_cases {channle : String} (h : s.delChannel channle = some s') :
    s.delChanLocked = false ∧ s' = { s with delChanList := channle :: s.delChanList } := by
  unfold delChannel at h
  obtain ⟨hfree, h⟩ := entered h
  rw [Option.some.injEq] at h
  exact ⟨hfree, h.symm⟩

theorem workerPop_cases (h : s.workerPop = some s') :
    s.delChanLocked = false ∧ s.worker = .idle ∧
      ((s.delChanList = [] ∧ s' = s) ∨ ∃ chanId rest, s.delChanList = chanId :: rest ∧
        ((chanId = "" ∧ s' = { s with delChanList := rest }) ∨
          (chanId ≠ "" ∧ s' = { s with delChanList := rest, worker := .popped chanId }))) := by
  unfold workerPop at h
  obtain ⟨hfree, h⟩ := entered h
  cases hpc : s.worker with
  | idle =>
      refine ⟨hfree, rfl, ?_⟩
      cases hlist : s.delChanList with
      | nil =>
          simp only [hpc, hlist, Option.some.injEq] at h
          exact Or.inl ⟨rfl, h.symm⟩
      | cons chanId rest =>
          simp only [hpc, hlist] at h
          refine Or.inr ⟨chanId, rest, rfl, ?_⟩
          by_cases hempty : chanId = ""
          · rw [if_pos hempty] at h
            exact Or.inl ⟨hempty, (Option.some.inj h).symm⟩
          · rw [if_neg hempty] at h
            exact Or.inr ⟨hempty, (Option.some.inj h).symm⟩
  | _ => simp [hpc] at h

theorem workerTake_cases (h : s.workerTake = some s') :
    s.chanMapLocked = false ∧ ∃ chanId, s.worker = .popped chanId ∧
      ((∃ p, s.chanMap.lookup chanId = some (some p) ∧
          s' = { s with
            chanMap := (s.chanMap.subscript chanId).2.erase chanId
            live := s.live.erase chanId
            worker := .taken chanId p }) ∨
        ((s.chanMap.subscript chanId).1 = none ∧
          s' = { s.touch chanId with worker := .idle })) := by
  unfold workerTake at h
  obtain ⟨hfree, h⟩ := entered h
  cases hpc : s.worker with
  | popped chanId =>
      refine ⟨hfree, chanId, rfl, ?_⟩
      cases hsub : (s.chanMap.subscript chanId).1 with
      | some p =>
          simp only [hpc, hsub, Option.some.injEq] at h
          exact Or.inl ⟨p, ChanMap.subscript_eq_some.mp hsub, h.symm⟩
      | none =>
          simp only [hpc, hsub, Option.some.injEq] at h
          exact Or.inr ⟨rfl, h.symm⟩
  | _ => simp [hpc] at h

theorem workerKill_cases (h : s.workerKill = some s') :
    ∃ chanId p c, s.worker = .taken chanId p ∧ s.heap p = some c ∧
      s' = { s.kill c.pid with worker := .killed chanId p } := by
  unfold workerKill at h
  cases hpc : s.worker with
  | taken chanId p =>
      cases hheap : s.heap p with
      | some c =>
          simp only [hpc, hheap, Option.some.injEq] at h
          exact ⟨chanId, p, c, rfl, hheap, h.symm⟩
      | none => simp [hpc, hheap] at h
  | _ => simp [hpc] at h

theorem waitpid_cases {pid ret : Int} (h : s.waitpid pid ret = some s') :
    (ret = -1 ∧ s' = s) ∨
      (ret ≠ -1 ∧ ∃ child, s.children ret = some child ∧ child.reaped = false ∧
        (pid = -1 ∨ pid = ret) ∧ s' = s.setChild ret { child with reaped := true }) := by
  unfold waitpid at h
  by_cases hfailed : ret = -1
  · rw [if_pos hfailed] at h
    exact Or.inl ⟨hfailed, (Option.some.inj h).symm⟩
  · rw [if_neg hfailed] at h
    cases hchild : s.children ret with
    | none => simp [hchild] at h
    | some child =>
        simp only [hchild] at h
        by_cases hwaits : child.reaped = false ∧ (pid = -1 ∨ pid = ret)
        · rw [if_pos hwaits] at h
          exact Or.inr ⟨hfailed, child, rfl, hwaits.1, hwaits.2, (Option.some.inj h).symm⟩
        · rw [if_neg hwaits] at h
          cases h

theorem workerWait_cases {ret : Int} (h : s.workerWait ret = some s') :
    ∃ chanId p c r, s.worker = .killed chanId p ∧ s.heap p = some c ∧
      s.waitpid c.pid ret = some r ∧
      ((ret = c.pid ∧ s' = { r with worker := .waited chanId p }) ∨
        (ret ≠ c.pid ∧ s' = { r with worker := .idle })) := by
  unfold workerWait at h
  cases hpc : s.worker with
  | killed chanId p =>
      cases hheap : s.heap p with
      | some c =>
          simp only [hpc, hheap] at h
          cases hwait : s.waitpid c.pid ret with
          | none => simp [hwait] at h
          | some r =>
              simp only [hwait] at h
              refine ⟨chanId, p, c, r, rfl, hheap, hwait, ?_⟩
              by_cases hret : ret = c.pid
              · rw [if_pos hret] at h
                exact Or.inl ⟨hret, (Option.some.inj h).symm⟩
              · rw [if_neg hret] at h
                exact Or.inr ⟨hret, (Option.some.inj h).symm⟩
      | none => simp [hpc, hheap] at h
  | _ => simp [hpc] at h

/-- `waitpid` changes nothing but the children. -/
theorem waitpid_eq {pid ret : Int} (h : s.waitpid pid ret = some s') :
    ∃ children, s' = { s with children := children } := by
  rcases waitpid_cases h with ⟨-, rfl⟩ | ⟨-, child, -, -, -, rfl⟩
  · exact ⟨s'.children, rfl⟩
  · exact ⟨_, rfl⟩

/-- Neither does the worker when it waits, but for its own place. -/
theorem workerWait_eq {ret : Int} (h : s.workerWait ret = some s') :
    ∃ children worker, s' = { s with children := children, worker := worker } := by
  obtain ⟨chanId, p, c, r, -, -, hwait, hworker⟩ := workerWait_cases h
  obtain ⟨children, rfl⟩ := waitpid_eq hwait
  rcases hworker with ⟨-, rfl⟩ | ⟨-, rfl⟩
  · exact ⟨children, _, rfl⟩
  · exact ⟨children, _, rfl⟩

theorem workerUnlink_cases (h : s.workerUnlink = some s') :
    ∃ chanId p c, s.worker = .waited chanId p ∧ s.heap p = some c ∧
      s' = { s with worker := .unlinked chanId p } := by
  unfold workerUnlink at h
  cases hpc : s.worker with
  | waited chanId p =>
      cases hheap : s.heap p with
      | some c =>
          simp only [hpc, hheap, Option.some.injEq] at h
          exact ⟨chanId, p, c, rfl, hheap, h.symm⟩
      | none => simp [hpc, hheap] at h
  | _ => simp [hpc] at h

theorem workerDelete_cases (h : s.workerDelete = some s') :
    ∃ chanId p, s.worker = .unlinked chanId p ∧
      s' = { s with worker := .idle }.setHeap p none := by
  unfold workerDelete at h
  cases hpc : s.worker with
  | unlinked chanId p =>
      simp only [hpc, Option.some.injEq] at h
      exact ⟨chanId, p, rfl, h.symm⟩
  | _ => simp [hpc] at h

/-- A lookup for a command leads to a thread that has found a channel, or leaves all but the table
as it is. -/
theorem codecLookup_cases {channel resolution : String} {rate maxBitrate : Int}
    (h : s.codecLookup t channel rate resolution maxBitrate = some s') :
    s.threads t = .idle ∧
      ((∃ p, s.chanMap.lookup channel = some (some p) ∧
          s' = (s.touch channel).setThread t (.codecFound p ⟨(Resolution.ofString resolution).mHeight,
            (Resolution.ofString resolution).mWidth, rate, maxBitrate⟩)) ∨
        ((s.chanMap.subscript channel).1 = none ∧ s' = s.touch channel)) := by
  unfold codecLookup at h
  cases hpc : s.threads t with
  | idle =>
      refine ⟨rfl, ?_⟩
      cases hsub : (s.chanMap.subscript channel).1 with
      | some p =>
          simp only [hpc, hsub, Option.some.injEq] at h
          exact Or.inl ⟨p, ChanMap.subscript_eq_some.mp hsub, h.symm⟩
      | none =>
          simp only [hpc, hsub, Option.some.injEq] at h
          exact Or.inr ⟨rfl, h.symm⟩
  | _ => simp [hpc] at h

theorem presetLookup_cases {chan : String} {param : ChanMediaParam}
    (h : s.presetLookup t chan param = some s') :
    s.threads t = .idle ∧
      ((chan = "" ∧ s' = s) ∨ (chan ≠ "" ∧ s.chanMapLocked = false ∧
        ((∃ p, s.chanMap.lookup chan = some (some p) ∧
            s' = (s.touch chan).setThread t (.presetFound p param)) ∨
          ((s.chanMap.subscript chan).1 = none ∧
            s' = { s.touch chan with chanMapLocked := true })))) := by
  unfold presetLookup at h
  cases hpc : s.threads t with
  | idle =>
      refine ⟨rfl, ?_⟩
      simp only [hpc] at h
      by_cases hempty : chan = ""
      · rw [if_pos hempty] at h
        exact Or.inl ⟨hempty, (Option.some.inj h).symm⟩
      · rw [if_neg hempty] at h
        obtain ⟨hfree, h⟩ := entered h
        refine Or.inr ⟨hempty, hfree, ?_⟩
        cases hsub : (s.chanMap.subscript chan).1 with
        | some p =>
            simp only [hsub, Option.some.injEq] at h
            exact Or.inl ⟨p, ChanMap.subscript_eq_some.mp hsub, h.symm⟩
        | none =>
            simp only [hsub, Option.some.injEq] at h
            exact Or.inr ⟨rfl, h.symm⟩
  | _ => simp [hpc] at h

/-- A command changes nothing but the commands. -/
theorem writeCommand_eq (s : Manager) (p : Ptr) (para : CodecParam) :
    ∃ commands, s.writeCommand p para = { s with commands := commands } := by
  unfold writeCommand
  split
  · exact ⟨_, rfl⟩
  · exact ⟨s.commands, rfl⟩

/-- An update of media parameters changes nothing but the heap. -/
theorem updateParam_eq (s : Manager) (p : Ptr) (update : ChanMediaParam → ChanMediaParam) :
    ∃ heap, s.updateParam p update = { s with heap := heap } := by
  unfold updateParam
  split
  · exact ⟨_, rfl⟩
  · exact ⟨s.heap, rfl⟩

theorem writeCommand_kept (s : Manager) (p : Ptr) (para : CodecParam) :
    (s.writeCommand p para).threads = s.threads ∧ (s.writeCommand p para).chanMap = s.chanMap ∧
      (s.writeCommand p para).live = s.live := by
  unfold writeCommand
  split
  all_goals exact ⟨rfl, rfl, rfl⟩

theorem updateParam_kept (s : Manager) (p : Ptr) (update : ChanMediaParam → ChanMediaParam) :
    (s.updateParam p update).threads = s.threads ∧ (s.updateParam p update).chanMap = s.chanMap ∧
      (s.updateParam p update).live = s.live := by
  unfold updateParam
  split
  all_goals exact ⟨rfl, rfl, rfl⟩

/-- The rest of a command: a write or an update through the pointer that was found. -/
theorem codecWrite_cases (h : s.codecWrite t = some s') :
    ∃ p para, s.threads t = .codecFound p para ∧
      s' = (s.writeCommand p para).setThread t (.codecWritten p para) := by
  unfold codecWrite at h
  cases hpc : s.threads t with
  | codecFound p para =>
      simp only [hpc, Option.some.injEq] at h
      exact ⟨p, para, rfl, h.symm⟩
  | _ => simp [hpc] at h

theorem codecUpdate_cases (h : s.codecUpdate t = some s') :
    ∃ p para, s.threads t = .codecWritten p para ∧
      s' = (s.updateParam p fun m => ⟨{ m.mRes with mHeight := para.height, mWidth := para.width },
        para.rate, para.maxBitrate⟩).setThread t .idle := by
  unfold codecUpdate at h
  cases hpc : s.threads t with
  | codecWritten p para =>
      simp only [hpc, Option.some.injEq] at h
      exact ⟨p, para, rfl, h.symm⟩
  | _ => simp [hpc] at h

theorem presetWrite_cases (h : s.presetWrite t = some s') :
    ∃ p param, s.threads t = .presetFound p param ∧
      s' = (s.writeCommand p ⟨param.mRes.mHeight, param.mRes.mWidth, param.fps,
        param.maxBitrate⟩).setThread t (.presetWritten p param) := by
  unfold presetWrite at h
  cases hpc : s.threads t with
  | presetFound p param =>
      simp only [hpc, Option.some.injEq] at h
      exact ⟨p, param, rfl, h.symm⟩
  | _ => simp [hpc] at h

theorem presetUpdate_cases (h : s.presetUpdate t = some s') :
    ∃ p param, s.threads t = .presetWritten p param ∧
      s' = (s.updateParam p fun _ => param).setThread t .idle := by
  unfold presetUpdate at h
  cases hpc : s.threads t with
  | presetWritten p param =>
      simp only [hpc, Option.some.injEq] at h
      exact ⟨p, param, rfl, h.symm⟩
  | _ => simp [hpc] at h

theorem channelInfo_of_entry {key : String} {p : Ptr} {c : Channel}
    (hp : s.chanMap.lookup key = some (some p)) (hc : s.heap p = some c) :
    s.channelInfo key = some ⟨c.chanName, c.pid, c.mCMediaParam.mRes.mHeight,
      c.mCMediaParam.mRes.mWidth, c.mCMediaParam.fps⟩ := by
  simp [channelInfo, hp, hc]

end Manager

end GMProxy.TdChannel
