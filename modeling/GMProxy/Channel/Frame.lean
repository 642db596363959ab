import GMProxy.Channel.Refinement

/-!
# What a step leaves alone

The operations of the manager by the components they work on: a component changes only in the steps
of its own operations.
-/

namespace GMProxy.TdChannel

/-- The name for which a thread is inside `createChannel`, behind the check. -/
def Pc.creates : Pc → Option String
  | createChecked channel _ => some channel
  | createForked channel _ _ => some channel
  | createBuilt channel _ => some channel
  | _ => none

/-- The `Channel` that a thread has looked up for a command and is still going to use. -/
def Pc.uses : Pc → Option Ptr
  | codecFound ch _ => some ch
  | codecWritten ch _ => some ch
  | presetFound lChannel _ => some lChannel
  | presetWritten lChannel _ => some lChannel
  | _ => none

namespace Event

def isCreate : Event → Bool
  | createCheck .. | createFork .. | createBuild .. | createInsert .. => true
  | _ => false

def isCommand : Event → Bool
  | codecLookup .. | codecWrite .. | codecUpdate .. | presetLookup .. | presetWrite ..
  | presetUpdate .. => true
  | _ => false

def isWorker : Event → Bool
  | workerPop | workerTake | workerKill | workerWait _ | workerUnlink | workerDelete => true
  | _ => false

/-- The steps that insert a channel into the table or take one out. -/
def movesEntry : Event → Bool
  | createInsert .. | workerTake => true
  | _ => false

/-- The steps that allocate a record or free one. -/
def movesRecord : Event → Bool
  | createBuild .. | workerDelete => true
  | _ => false

/-- The steps that fork a child or change what is known of one. -/
def movesChild : Event → Bool
  | createFork .. | childFifo .. | workerKill | workerWait _ => true
  | _ => false

/-- The steps that queue a request or take one up. -/
def movesRequest : Event → Bool
  | delChannel .. | workerPop => true
  | _ => false

/-- The steps that write to a record or can keep a mutex. -/
def movesHeap : Event → Bool
  | createBuild .. | workerDelete | codecUpdate _ | presetLookup .. | presetUpdate _ => true
  | _ => false

end Event

/-- The step that the worker takes from a place. -/
def WorkerPc.takes : WorkerPc → Event → Bool
  | idle, .workerPop => true
  | popped _, .workerTake => true
  | taken _ _, .workerKill => true
  | killed _ _, .workerWait _ => true
  | waited _ _, .workerUnlink => true
  | unlinked _ _, .workerDelete => true
  | _, _ => false

/-- What a step of the manager makes of the place of the worker. -/
inductive WorkerPc.Move (s : Manager) : WorkerPc → Event → WorkerPc → Prop
  | stays {w : WorkerPc} {e : Event} (h : e.isWorker = false) : Move s w e w
  | rests : Move s idle .workerPop idle
  | pops {chanId : String} (h : chanId ≠ "") : Move s idle .workerPop (popped chanId)
  | takes {chanId : String} {p : Ptr} (h : s.chanMap.lookup chanId = some (some p)) :
      Move s (popped chanId) .workerTake (taken chanId p)
  | drops {chanId : String} : Move s (popped chanId) .workerTake idle
  | kills {chanId : String} {p : Ptr} : Move s (taken chanId p) .workerKill (killed chanId p)
  | waits {chanId : String} {p : Ptr} {ret : Int} :
      Move s (killed chanId p) (.workerWait ret) (waited chanId p)
  | gives {chanId : String} {p : Ptr} {ret : Int} : Move s (killed chanId p) (.workerWait ret) idle
  | unlinks {chanId : String} {p : Ptr} :
      Move s (waited chanId p) .workerUnlink (unlinked chanId p)
  | deletes {chanId : String} {p : Ptr} : Move s (unlinked chanId p) .workerDelete idle

variable {s s' : Manager} {e : Event} {t : Nat}

/-- What a step that is none of a component's own leaves of it. -/
structure Frame (s : Manager) (e : Event) (s' : Manager) : Prop where
  creates : e.isCreate = false → ∀ t, (s'.threads t).creates = (s.threads t).creates ∧
    (s'.threads t).holding = (s.threads t).holding
  uses : e.isCommand = false → ∀ t, (s'.threads t).uses = (s.threads t).uses
  worker : e.isWorker = false → s'.worker = s.worker
  entries : e.movesEntry = false → ∀ key p,
    s'.chanMap.lookup key = some (some p) ↔ s.chanMap.lookup key = some (some p)
  records : e.movesRecord = false → s'.nextPtr = s.nextPtr ∧
    ∀ p, (s'.heap p).map Channel.pid = (s.heap p).map Channel.pid
  children : e.movesChild = false → s'.children = s.children
  requests : e.movesRequest = false → s'.delChanList = s.delChanList

namespace Manager

private theorem setThread_view {α : Type*} (view : Pc → α) {pc : Pc}
    (h : view pc = view (s.threads t)) (t' : Nat) :
    view ((s.setThread t pc).threads t') = view (s.threads t') := by
  by_cases ht : t' = t
  · rw [ht, setThread_self, h]
  · exact congrArg view (Function.update_of_ne ht ..)

/-- What `view` shows of the threads after one of them has moved. -/
theorem view_setThread {α : Type*} (view : Pc → α) {pc : Pc} {r : Manager}
    (hthreads : r.threads = s.threads) {u : Nat} {x : α}
    (hu : view ((r.setThread t pc).threads u) = x) :
    (u = t ∧ view pc = x) ∨ view (s.threads u) = x := by
  by_cases hut : u = t
  · rw [hut, setThread_self] at hu
    exact Or.inl ⟨hut, hu⟩
  · have hother : (r.setThread t pc).threads u = s.threads u := by
      rw [← hthreads]
      exact Function.update_of_ne hut ..
    rw [hother] at hu
    exact Or.inr hu

theorem touch_entries (s : Manager) (name key : String) (p : Ptr) :
    (s.touch name).chanMap.lookup key = some (some p) ↔ s.chanMap.lookup key = some (some p) := by
  rw [touch, ChanMap.lookup_subscript]
  split
  case isTrue hk => rw [hk, Option.some.injEq, ChanMap.subscript_eq_some]
  case isFalse => rfl

private theorem updateParam_records (s : Manager) (p : Ptr) (update : ChanMediaParam → ChanMediaParam)
    (q : Ptr) : ((s.updateParam p update).heap q).map Channel.pid = (s.heap q).map Channel.pid :=
  congrArg (fun l => Ledger.record l q) (ledger_updateParam s p update)

private theorem setThread_outside {pc : Pc} (hpc : pc.creates = none ∧ pc.holding = .nothing)
    (hold : (s.threads t).creates = none ∧ (s.threads t).holding = .nothing) (u : Nat) :
    ((s.setThread t pc).threads u).creates = (s.threads u).creates ∧
      ((s.setThread t pc).threads u).holding = (s.threads u).holding :=
  ⟨setThread_view Pc.creates (hpc.1.trans hold.1.symm) u,
    setThread_view Pc.holding (hpc.2.trans hold.2.symm) u⟩

private theorem createCheck_frame {channel : String} {param : ChanMediaParam}
    (h : s.createCheck t channel param = some s') : Frame s (.createCheck t channel param) s' := by
  obtain ⟨-, hidle, ⟨-, rfl⟩ | ⟨-, rfl⟩⟩ := createCheck_cases h
  · exact ⟨nofun, fun _ _ => rfl, fun _ => rfl, fun _ => touch_entries s channel,
      fun _ => ⟨rfl, fun _ => rfl⟩, fun _ => rfl, fun _ => rfl⟩
  · have huses : (Pc.createChecked channel param).uses = ((s.touch channel).threads t).uses :=
      (congrArg Pc.uses hidle).symm
    exact ⟨nofun, fun _ => setThread_view Pc.uses huses, fun _ => rfl,
      fun _ => touch_entries s channel, fun _ => ⟨rfl, fun _ => rfl⟩, fun _ => rfl, fun _ => rfl⟩

private theorem createFork_frame {fpid : Int} (h : s.createFork t fpid = some s') :
    Frame s (.createFork t fpid) s' := by
  obtain ⟨channel, param, hchecked, hfork⟩ := createFork_cases h
  have huses : (Pc.createForked channel param fpid).uses = (s.threads t).uses :=
    (congrArg Pc.uses hchecked).symm
  obtain ⟨-, rfl⟩ | ⟨-, -, rfl⟩ := hfork
  all_goals exact ⟨nofun, fun _ => setThread_view (s := s) Pc.uses huses, fun _ => rfl,
    fun _ _ _ => Iff.rfl, fun _ => ⟨rfl, fun _ => rfl⟩, nofun, fun _ => rfl⟩

private theorem createBuild_frame {made : Bool} (h : s.createBuild t = some s') :
    Frame s (.createBuild t made) s' := by
  obtain ⟨channel, param, fpid, hforked, rfl⟩ := createBuild_cases h
  have huses : (Pc.createBuilt channel s.nextPtr).uses = (s.threads t).uses :=
    (congrArg Pc.uses hforked).symm
  exact ⟨nofun, fun _ => setThread_view (s := s) Pc.uses huses, fun _ => rfl,
    fun _ _ _ => Iff.rfl, nofun, fun _ => rfl, fun _ => rfl⟩

private theorem createInsert_frame (h : s.createInsert t = some s') :
    Frame s (.createInsert t) s' := by
  obtain ⟨-, channel, p, hbuilt, rfl⟩ := createInsert_cases h
  have huses : Pc.idle.uses = (s.threads t).uses := (congrArg Pc.uses hbuilt).symm
  exact ⟨nofun, fun _ => setThread_view (s := s) Pc.uses huses, fun _ => rfl, nofun,
    fun _ => ⟨rfl, fun _ => rfl⟩, fun _ => rfl, fun _ => rfl⟩

private theorem childFifo_frame {pid : Int} {made : Bool} (h : s.childFifo pid = some s') :
    Frame s (.childFifo pid made) s' := by
  obtain ⟨child, -, rfl⟩ := childFifo_cases h
  exact ⟨fun _ _ => ⟨rfl, rfl⟩, fun _ _ => rfl, fun _ => rfl, fun _ _ _ => Iff.rfl,
    fun _ => ⟨rfl, fun _ => rfl⟩, nofun, fun _ => rfl⟩

private theorem delChannel_frame {channle : String} (h : s.delChannel channle = some s') :
    Frame s (.delChannel channle) s' := by
  obtain ⟨-, rfl⟩ := delChannel_cases h
  exact ⟨fun _ _ => ⟨rfl, rfl⟩, fun _ _ => rfl, fun _ => rfl, fun _ _ _ => Iff.rfl,
    fun _ => ⟨rfl, fun _ => rfl⟩, fun _ => rfl, nofun⟩

private theorem worker_frame (hworker : e.isWorker = true) (hthreads : s'.threads = s.threads)
    (hrecords : s'.nextPtr = s.nextPtr ∧ s'.heap = s.heap)
    (hentries : e.movesEntry = false → s'.chanMap = s.chanMap)
    (hchildren : e.movesChild = false → s'.children = s.children)
    (hrequests : e.movesRequest = false → s'.delChanList = s.delChanList) : Frame s e s' := by
  refine ⟨fun _ u => ?_, fun _ u => ?_, fun hnot => ?_, fun hnot key p => ?_, fun _ => ?_,
    hchildren, hrequests⟩
  · rw [hthreads]
    exact ⟨rfl, rfl⟩
  · rw [hthreads]
  · rw [hworker] at hnot
    cases hnot
  · rw [hentries hnot]
  · rw [hrecords.2]
    exact ⟨hrecords.1, fun _ => rfl⟩

private theorem workerPop_frame (h : s.workerPop = some s') : Frame s .workerPop s' := by
  obtain ⟨-, -, ⟨-, rfl⟩ | ⟨chanId, rest, -, ⟨-, rfl⟩ | ⟨-, rfl⟩⟩⟩ := workerPop_cases h
  all_goals exact worker_frame rfl rfl ⟨rfl, rfl⟩ (fun _ => rfl) (fun _ => rfl) nofun

private theorem workerTake_frame (h : s.workerTake = some s') : Frame s .workerTake s' := by
  obtain ⟨-, chanId, -, ⟨p, -, rfl⟩ | ⟨-, rfl⟩⟩ := workerTake_cases h
  all_goals exact worker_frame rfl rfl ⟨rfl, rfl⟩ nofun (fun _ => rfl) (fun _ => rfl)

private theorem workerKill_frame (h : s.workerKill = some s') : Frame s .workerKill s' := by
  obtain ⟨chanId, p, c, -, -, rfl⟩ := workerKill_cases h
  exact worker_frame rfl rfl ⟨rfl, rfl⟩ (fun _ => rfl) nofun fun _ => rfl

private theorem workerWait_frame {ret : Int} (h : s.workerWait ret = some s') :
    Frame s (.workerWait ret) s' := by
  obtain ⟨children, worker, rfl⟩ := workerWait_eq h
  exact worker_frame rfl rfl ⟨rfl, rfl⟩ (fun _ => rfl) nofun fun _ => rfl

private theorem workerUnlink_frame (h : s.workerUnlink = some s') : Frame s .workerUnlink s' := by
  obtain ⟨chanId, p, c, -, -, rfl⟩ := workerUnlink_cases h
  exact worker_frame rfl rfl ⟨rfl, rfl⟩ (fun _ => rfl) (fun _ => rfl) fun _ => rfl

private theorem workerDelete_frame (h : s.workerDelete = some s') : Frame s .workerDelete s' := by
  obtain ⟨chanId, p, -, rfl⟩ := workerDelete_cases h
  exact ⟨fun _ _ => ⟨rfl, rfl⟩, fun _ _ => rfl, nofun, fun _ _ _ => Iff.rfl, nofun,
    fun _ => rfl, fun _ => rfl⟩

private theorem codecLookup_frame {channel resolution : String} {rate maxBitrate : Int}
    (h : s.codecLookup t channel rate resolution maxBitrate = some s') :
    Frame s (.codecLookup t channel rate resolution maxBitrate) s' := by
  obtain ⟨hidle, ⟨p, -, rfl⟩ | ⟨-, rfl⟩⟩ := codecLookup_cases h
  · have hout : ((s.touch channel).threads t).creates = none ∧
        ((s.touch channel).threads t).holding = .nothing := by
      rw [show (s.touch channel).threads t = .idle from hidle]
      exact ⟨rfl, rfl⟩
    exact ⟨fun _ => setThread_outside (s := s.touch channel) ⟨rfl, rfl⟩ hout, nofun, fun _ => rfl,
      fun _ => touch_entries s channel, fun _ => ⟨rfl, fun _ => rfl⟩, fun _ => rfl, fun _ => rfl⟩
  · exact ⟨fun _ _ => ⟨rfl, rfl⟩, nofun, fun _ => rfl, fun _ => touch_entries s channel,
      fun _ => ⟨rfl, fun _ => rfl⟩, fun _ => rfl, fun _ => rfl⟩

private theorem presetLookup_frame {chan : String} {param : ChanMediaParam}
    (h : s.presetLookup t chan param = some s') : Frame s (.presetLookup t chan param) s' := by
  obtain ⟨hidle, ⟨-, rfl⟩ | ⟨-, -, ⟨p, -, rfl⟩ | ⟨-, rfl⟩⟩⟩ := presetLookup_cases h
  · exact ⟨fun _ _ => ⟨rfl, rfl⟩, nofun, fun _ => rfl, fun _ _ _ => Iff.rfl,
      fun _ => ⟨rfl, fun _ => rfl⟩, fun _ => rfl, fun _ => rfl⟩
  · have hout : ((s.touch chan).threads t).creates = none ∧
        ((s.touch chan).threads t).holding = .nothing := by
      rw [show (s.touch chan).threads t = .idle from hidle]
      exact ⟨rfl, rfl⟩
    exact ⟨fun _ => setThread_outside (s := s.touch chan) ⟨rfl, rfl⟩ hout, nofun, fun _ => rfl,
      fun _ => touch_entries s chan, fun _ => ⟨rfl, fun _ => rfl⟩, fun _ => rfl, fun _ => rfl⟩
  · exact ⟨fun _ _ => ⟨rfl, rfl⟩, nofun, fun _ => rfl, fun _ => touch_entries s chan,
      fun _ => ⟨rfl, fun _ => rfl⟩, fun _ => rfl, fun _ => rfl⟩

private theorem write_frame {pc : Pc} {p : Ptr} {para : CodecParam} (hcommand : e.isCommand = true)
    (hpc : pc.creates = none ∧ pc.holding = .nothing)
    (hold : (s.threads t).creates = none ∧ (s.threads t).holding = .nothing) :
    Frame s e ((s.writeCommand p para).setThread t pc) := by
  obtain ⟨commands, heq⟩ := s.writeCommand_eq p para
  rw [heq]
  refine ⟨fun _ => setThread_outside (s := s) hpc hold, fun hnot => ?_, fun _ => rfl,
    fun _ _ _ => Iff.rfl, fun _ => ⟨rfl, fun _ => rfl⟩, fun _ => rfl, fun _ => rfl⟩
  rw [hcommand] at hnot
  cases hnot

private theorem update_frame {pc : Pc} {p : Ptr} {update : ChanMediaParam → ChanMediaParam}
    (hcommand : e.isCommand = true) (hpc : pc.creates = none ∧ pc.holding = .nothing)
    (hold : (s.threads t).creates = none ∧ (s.threads t).holding = .nothing) :
    Frame s e ((s.updateParam p update).setThread t pc) := by
  have hrecords := updateParam_records s p update
  obtain ⟨heap, heq⟩ := s.updateParam_eq p update
  rw [heq] at hrecords ⊢
  refine ⟨fun _ => setThread_outside (s := s) hpc hold, fun hnot => ?_, fun _ => rfl,
    fun _ _ _ => Iff.rfl, fun _ => ⟨rfl, hrecords⟩, fun _ => rfl, fun _ => rfl⟩
  rw [hcommand] at hnot
  cases hnot

private theorem codecWrite_frame (h : s.codecWrite t = some s') : Frame s (.codecWrite t) s' := by
  obtain ⟨p, para, hpc, rfl⟩ := codecWrite_cases h
  exact write_frame rfl ⟨rfl, rfl⟩ (by rw [hpc]; exact ⟨rfl, rfl⟩)

private theorem codecUpdate_frame (h : s.codecUpdate t = some s') : Frame s (.codecUpdate t) s' := by
  obtain ⟨p, para, hpc, rfl⟩ := codecUpdate_cases h
  exact update_frame rfl ⟨rfl, rfl⟩ (by rw [hpc]; exact ⟨rfl, rfl⟩)

private theorem presetWrite_frame (h : s.presetWrite t = some s') : Frame s (.presetWrite t) s' := by
  obtain ⟨p, param, hpc, rfl⟩ := presetWrite_cases h
  exact write_frame rfl ⟨rfl, rfl⟩ (by rw [hpc]; exact ⟨rfl, rfl⟩)

private theorem presetUpdate_frame (h : s.presetUpdate t = some s') :
    Frame s (.presetUpdate t) s' := by
  obtain ⟨p, param, hpc, rfl⟩ := presetUpdate_cases h
  exact update_frame rfl ⟨rfl, rfl⟩ (by rw [hpc]; exact ⟨rfl, rfl⟩)

end Manager

theorem step_frame (h : step s e = some s') : Frame s e s' := by
  cases e with
  | createCheck t channel param => exact Manager.createCheck_frame h
  | createFork t fpid => exact Manager.createFork_frame h
  | createBuild t made => exact Manager.createBuild_frame h
  | createInsert t => exact Manager.createInsert_frame h
  | childFifo pid made => exact Manager.childFifo_frame h
  | delChannel channle => exact Manager.delChannel_frame h
  | workerPop => exact Manager.workerPop_frame h
  | workerTake => exact Manager.workerTake_frame h
  | workerKill => exact Manager.workerKill_frame h
  | workerWait ret => exact Manager.workerWait_frame h
  | workerUnlink => exact Manager.workerUnlink_frame h
  | workerDelete => exact Manager.workerDelete_frame h
  | codecLookup t channel rate resolution maxBitrate => exact Manager.codecLookup_frame h
  | codecWrite t => exact Manager.codecWrite_frame h
  | codecUpdate t => exact Manager.codecUpdate_frame h
  | presetLookup t chan param => exact Manager.presetLookup_frame h
  | presetWrite t => exact Manager.presetWrite_frame h
  | presetUpdate t => exact Manager.presetUpdate_frame h

theorem worker_move (h : step s e = some s') : WorkerPc.Move s s.worker e s'.worker := by
  cases e with
  | workerPop =>
      obtain ⟨-, hidle, ⟨-, rfl⟩ | ⟨chanId, rest, -, ⟨-, rfl⟩ | ⟨hname, rfl⟩⟩⟩ :=
        Manager.workerPop_cases h
      · rw [hidle]
        exact .rests
      · rw [hidle]
        exact .rests
      · rw [hidle]
        exact .pops hname
  | workerTake =>
      obtain ⟨-, chanId, hpopped, ⟨p, hp, rfl⟩ | ⟨-, rfl⟩⟩ := Manager.workerTake_cases h
      · rw [hpopped]
        exact .takes hp
      · rw [hpopped]
        exact .drops
  | workerKill =>
      obtain ⟨chanId, p, c, htaken, -, rfl⟩ := Manager.workerKill_cases h
      rw [htaken]
      exact .kills
  | workerWait ret =>
      obtain ⟨chanId, p, c, r, hkilled, -, -, ⟨-, rfl⟩ | ⟨-, rfl⟩⟩ := Manager.workerWait_cases h
      · rw [hkilled]
        exact .waits
      · rw [hkilled]
        exact .gives
  | workerUnlink =>
      obtain ⟨chanId, p, c, hwaited, -, rfl⟩ := Manager.workerUnlink_cases h
      rw [hwaited]
      exact .unlinks
  | workerDelete =>
      obtain ⟨chanId, p, hunlinked, rfl⟩ := Manager.workerDelete_cases h
      rw [hunlinked]
      exact .deletes
  | _ =>
      rw [(step_frame h).worker rfl]
      exact .stays rfl

/-- The worker moves only in the step that it takes from its place. -/
theorem worker_kept (h : step s e = some s') (htakes : s.worker.takes e = false) :
    s'.worker = s.worker := by
  have hmove := worker_move h
  generalize s'.worker = w' at hmove ⊢
  generalize s.worker = w at hmove htakes ⊢
  cases hmove with
  | stays _ => rfl
  | _ => cases htakes

/-- A channel comes into the table only from the thread that has built it. -/
theorem entry_step (h : step s e = some s') {key : String} {p : Ptr}
    (hp : s'.chanMap.lookup key = some (some p)) :
    s.chanMap.lookup key = some (some p) ∨
      ∃ u, e = .createInsert u ∧ s.threads u = .createBuilt key p := by
  cases e with
  | createInsert u =>
      obtain ⟨-, channel, q, hbuilt, rfl⟩ := Manager.createInsert_cases h
      by_cases hkey : key = channel
      · have hnew : some (some q) = some (some p) := by
          rw [← hp, hkey]
          exact (Finmap.lookup_insert s.chanMap).symm
        obtain rfl := Option.some.inj (Option.some.inj hnew)
        exact Or.inr ⟨u, rfl, by rw [hbuilt, hkey]⟩
      · exact Or.inl ((Finmap.lookup_insert_of_ne s.chanMap hkey).symm.trans hp)
  | workerTake =>
      obtain ⟨-, chanId, -, ⟨q, -, rfl⟩ | ⟨-, rfl⟩⟩ := Manager.workerTake_cases h
      · have hkey : key ≠ chanId := by
          rintro rfl
          rw [Finmap.lookup_erase] at hp
          cases hp
        rw [Finmap.lookup_erase_ne hkey, ChanMap.lookup_subscript, if_neg hkey] at hp
        exact Or.inl hp
      · exact Or.inl ((Manager.touch_entries s chanId key p).mp hp)
  | _ => exact Or.inl (((step_frame h).entries rfl key p).mp hp)

/-- A channel goes out of the table only when the worker takes it, or when another one is inserted
over it. -/
theorem entry_kept (h : step s e = some s') {key : String} {p : Ptr}
    (hp : s.chanMap.lookup key = some (some p)) :
    s'.chanMap.lookup key = some (some p) ∨
      (e = .workerTake ∧ s.worker = .popped key ∧ s'.chanMap.lookup key = none) ∨
      ∃ u q, e = .createInsert u ∧ s.threads u = .createBuilt key q := by
  cases e with
  | createInsert u =>
      obtain ⟨-, channel, q, hbuilt, rfl⟩ := Manager.createInsert_cases h
      by_cases hkey : key = channel
      · exact Or.inr (Or.inr ⟨u, q, rfl, by rw [hbuilt, hkey]⟩)
      · exact Or.inl ((Finmap.lookup_insert_of_ne s.chanMap hkey).trans hp)
  | workerTake =>
      obtain ⟨-, chanId, hpopped, ⟨q, -, rfl⟩ | ⟨-, rfl⟩⟩ := Manager.workerTake_cases h
      · by_cases hkey : key = chanId
        · exact Or.inr (Or.inl ⟨rfl, by rw [hpopped, hkey], by rw [hkey]; exact Finmap.lookup_erase ..⟩)
        · left
          rw [Finmap.lookup_erase_ne hkey, ChanMap.lookup_subscript, if_neg hkey, hp]
      · exact Or.inl ((Manager.touch_entries s chanId key p).mpr hp)
  | _ => exact Or.inl (((step_frame h).entries rfl key p).mpr hp)

theorem nextPtr_step (h : step s e = some s') : s.nextPtr ≤ s'.nextPtr := by
  cases e with
  | createBuild t made =>
      obtain ⟨channel, param, fpid, -, rfl⟩ := Manager.createBuild_cases h
      exact Nat.le_succ s.nextPtr
  | workerDelete =>
      obtain ⟨chanId, q, -, rfl⟩ := Manager.workerDelete_cases h
      exact Nat.le_refl _
  | _ => exact Nat.le_of_eq ((step_frame h).records rfl).1.symm

/-- A thread comes to hold a channel only by forking its child and by making its record. -/
theorem holding_step (h : step s e = some s') {x : Holding} (ht : (s'.threads t).holding = x) :
    (s.threads t).holding = x ∨ x = .nothing ∨
      (∃ u name fpid, e = .createFork u fpid ∧ x = .forked name fpid) ∨
      ∃ u made name param fpid, e = .createBuild u made ∧
        s.threads u = .createForked name param fpid ∧ x = .channel name s.nextPtr := by
  cases e with
  | createCheck u channel param =>
      obtain ⟨-, -, ⟨-, rfl⟩ | ⟨-, rfl⟩⟩ := Manager.createCheck_cases h
      · exact Or.inl ht
      · rcases Manager.view_setThread Pc.holding (r := s.touch channel) rfl ht with ⟨-, hnew⟩ | hold
        · exact Or.inr (Or.inl hnew.symm)
        · exact Or.inl hold
  | createFork u fpid =>
      obtain ⟨channel, param, -, ⟨-, rfl⟩ | ⟨-, -, rfl⟩⟩ := Manager.createFork_cases h
      all_goals
        rcases Manager.view_setThread Pc.holding (s := s) rfl ht with ⟨-, hnew⟩ | hold
        · exact Or.inr (Or.inr (Or.inl ⟨u, channel, _, rfl, hnew.symm⟩))
        · exact Or.inl hold
  | createBuild u made =>
      obtain ⟨channel, param, fpid, hforked, rfl⟩ := Manager.createBuild_cases h
      rcases Manager.view_setThread Pc.holding (s := s) rfl ht with ⟨-, hnew⟩ | hold
      · exact Or.inr (Or.inr (Or.inr ⟨u, made, channel, param, fpid, rfl, hforked, hnew.symm⟩))
      · exact Or.inl hold
  | createInsert u =>
      obtain ⟨-, channel, q, -, rfl⟩ := Manager.createInsert_cases h
      rcases Manager.view_setThread Pc.holding (s := s) rfl ht with ⟨-, hnew⟩ | hold
      · exact Or.inr (Or.inl hnew.symm)
      · exact Or.inl hold
  | _ =>
      left
      rw [← ((step_frame h).creates rfl t).2]
      exact ht

/-- Most steps leave all records and the flags of the mutexes alone. -/
theorem heap_frame (hheap : e.movesHeap = false) (h : step s e = some s') :
    s'.heap = s.heap ∧ s'.chanMapLocked = s.chanMapLocked ∧
      s'.delChanLocked = s.delChanLocked := by
  cases e with
  | createCheck t channel param =>
      obtain ⟨_, _, ⟨_, rfl⟩ | ⟨_, rfl⟩⟩ := Manager.createCheck_cases h
      all_goals exact ⟨rfl, rfl, rfl⟩
  | createFork t fpid =>
      obtain ⟨_, _, _, ⟨_, rfl⟩ | ⟨_, _, rfl⟩⟩ := Manager.createFork_cases h
      all_goals exact ⟨rfl, rfl, rfl⟩
  | createInsert t =>
      obtain ⟨_, _, _, _, rfl⟩ := Manager.createInsert_cases h
      exact ⟨rfl, rfl, rfl⟩
  | childFifo pid made =>
      obtain ⟨_, _, rfl⟩ := Manager.childFifo_cases h
      exact ⟨rfl, rfl, rfl⟩
  | delChannel channle =>
      obtain ⟨_, rfl⟩ := Manager.delChannel_cases h
      exact ⟨rfl, rfl, rfl⟩
  | workerPop =>
      obtain ⟨_, _, ⟨_, rfl⟩ | ⟨_, _, _, ⟨_, rfl⟩ | ⟨_, rfl⟩⟩⟩ := Manager.workerPop_cases h
      all_goals exact ⟨rfl, rfl, rfl⟩
  | workerTake =>
      obtain ⟨_, _, _, ⟨_, _, rfl⟩ | ⟨_, rfl⟩⟩ := Manager.workerTake_cases h
      all_goals exact ⟨rfl, rfl, rfl⟩
  | workerKill =>
      obtain ⟨_, _, _, _, _, rfl⟩ := Manager.workerKill_cases h
      exact ⟨rfl, rfl, rfl⟩
  | workerWait ret =>
      obtain ⟨_, _, rfl⟩ := Manager.workerWait_eq h
      exact ⟨rfl, rfl, rfl⟩
  | workerUnlink =>
      obtain ⟨_, _, _, _, _, rfl⟩ := Manager.workerUnlink_cases h
      exact ⟨rfl, rfl, rfl⟩
  | codecLookup t channel rate resolution maxBitrate =>
      obtain ⟨_, ⟨_, _, rfl⟩ | ⟨_, rfl⟩⟩ := Manager.codecLookup_cases h
      all_goals exact ⟨rfl, rfl, rfl⟩
  | codecWrite t =>
      obtain ⟨p, para, _, rfl⟩ := Manager.codecWrite_cases h
      obtain ⟨commands, hwrite⟩ := Manager.writeCommand_eq s p para
      rw [hwrite]
      exact ⟨rfl, rfl, rfl⟩
  | presetWrite t =>
      obtain ⟨p, param, _, rfl⟩ := Manager.presetWrite_cases h
      obtain ⟨commands, hwrite⟩ := Manager.writeCommand_eq s p _
      rw [hwrite]
      exact ⟨rfl, rfl, rfl⟩
  | createBuild t made => cases hheap
  | workerDelete => cases hheap
  | codecUpdate t => cases hheap
  | presetLookup t chan param => cases hheap
  | presetUpdate t => cases hheap

/-- A record keeps its pid until the worker deletes it. -/
theorem record_step (h : step s e = some s') {p : Ptr} (hp : p < s.nextPtr) :
    s'.ledger.record p = s.ledger.record p ∨
      (e = .workerDelete ∧ s.ledger.holding .worker = .spent p ∧ s'.ledger.record p = none) := by
  cases e with
  | createBuild t made =>
      obtain ⟨channel, param, fpid, -, rfl⟩ := Manager.createBuild_cases h
      have hsame : Function.update s.heap s.nextPtr (some ⟨fpid, fifoPath channel, channel, param⟩) p =
          s.heap p := Function.update_of_ne (Nat.ne_of_lt hp) ..
      exact Or.inl (congrArg (Option.map Channel.pid) hsame)
  | workerDelete =>
      obtain ⟨chanId, q, hunlinked, rfl⟩ := Manager.workerDelete_cases h
      have hrecord := congrArg Ledger.record (Manager.ledger_setHeap { s with worker := .idle } q none)
      rw [hrecord]
      by_cases hpq : p = q
      · rw [hpq]
        exact Or.inr ⟨rfl, Manager.holding_worker hunlinked, Function.update_self ..⟩
      · exact Or.inl (Function.update_of_ne hpq ..)
  | _ => exact Or.inl (((step_frame h).records rfl).2 p)

end GMProxy.TdChannel
