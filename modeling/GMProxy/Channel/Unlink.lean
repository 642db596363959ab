import GMProxy.Channel.Frame
import GMProxy.Library.FileTree
import GMProxy.Library.Machine

/-!
# What the manager unlinks

The FIFO nodes of the channels in a tree of files: the manager and its children make them, the deletion
worker unlinks them. The names of the channels are not checked anywhere.
-/

namespace GMProxy.TdChannel

open Machine FileTree

/-- The channel that the worker has taken out of the table, with its name. -/
def WorkerPc.channel : WorkerPc → Option (String × Ptr)
  | taken chanId lChannel | killed chanId lChannel | waited chanId lChannel
  | unlinked chanId lChannel => some (chanId, lChannel)
  | _ => none

namespace Manager

variable {s s' : Manager} {e : Event} {name : String} {p : Ptr}

/-- The record is that of a channel with the name. -/
def Records (s : Manager) (name : String) (p : Ptr) : Prop :=
  ∃ c, s.heap p = some c ∧ c.chanName = name ∧ c.fifoName = fifoPath name

/-- Whoever holds a channel under a name has the record of that name. -/
structure NamesOk (s : Manager) : Prop where
  threads : ∀ t name p, (s.threads t).holding = .channel name p → s.Records name p
  entries : ∀ name p, s.chanMap.lookup name = some (some p) → s.Records name p
  worker : ∀ name p, s.worker.channel = some (name, p) → s.Records name p

theorem records_updateParam {update : ChanMediaParam → ChanMediaParam} {q : Ptr}
    (h : s.Records name p) : (s.updateParam q update).Records name p := by
  obtain ⟨c, hc, hname, hfifo⟩ := h
  unfold updateParam
  cases hq : s.heap q with
  | none => exact ⟨c, hc, hname, hfifo⟩
  | some c' =>
      by_cases hpq : p = q
      · subst hpq
        obtain rfl := Option.some.inj (hc.symm.trans hq)
        exact ⟨_, Function.update_self .., hname, hfifo⟩
      · exact ⟨c, (Function.update_of_ne hpq ..).trans hc, hname, hfifo⟩

/-- A record keeps its names until the worker deletes it. -/
theorem records_step (hrec : s.ledger.RecordsOk) (h : step s e = some s')
    (hdelete : e = .workerDelete → ∀ chanId, s.worker ≠ .unlinked chanId p)
    (hrecords : s.Records name p) : s'.Records name p := by
  by_cases hheap : e.movesHeap = false
  · obtain ⟨c, hc, hnames⟩ := hrecords
    exact ⟨c, by rw [(heap_frame hheap h).1, hc], hnames⟩
  · cases e with
    | createBuild t made =>
        obtain ⟨channel, param, fpid, _, rfl⟩ := createBuild_cases h
        obtain ⟨c, hc, hnames⟩ := hrecords
        have hp : p ≠ s.nextPtr := by
          rintro rfl
          have hfresh := hrec.fresh s.nextPtr (Nat.le_refl _)
          rw [record_of_heap hc] at hfresh
          cases hfresh
        have hsame : Function.update s.heap s.nextPtr (some ⟨fpid, fifoPath channel, channel, param⟩) p =
            some c := (Function.update_of_ne hp ..).trans hc
        exact ⟨c, hsame, hnames⟩
    | workerDelete =>
        obtain ⟨chanId, q, hunlinked, rfl⟩ := workerDelete_cases h
        obtain ⟨c, hc, hnames⟩ := hrecords
        have hpq : p ≠ q := by
          rintro rfl
          exact hdelete rfl chanId hunlinked
        exact ⟨c, (Function.update_of_ne hpq ..).trans hc, hnames⟩
    | codecUpdate t =>
        obtain ⟨q, para, _, rfl⟩ := codecUpdate_cases h
        exact records_updateParam hrecords
    | presetLookup t chan param =>
        obtain ⟨_, ⟨_, rfl⟩ | ⟨_, _, ⟨q, _, rfl⟩ | ⟨_, rfl⟩⟩⟩ := presetLookup_cases h
        all_goals exact hrecords
    | presetUpdate t =>
        obtain ⟨q, param, _, rfl⟩ := presetUpdate_cases h
        exact records_updateParam hrecords
    | _ => exact absurd rfl hheap

/-- The worker comes to a channel only through the table, and leaves it at the latest when it deletes
its record. -/
theorem worker_channel_step (h : step s e = some s') (hchannel : s'.worker.channel = some (name, p)) :
    (s.worker.channel = some (name, p) ∧ e ≠ .workerDelete) ∨
      (e = .workerTake ∧ s.chanMap.lookup name = some (some p)) := by
  have hmove := worker_move h
  generalize s'.worker = w' at hmove hchannel
  generalize s.worker = w at hmove ⊢
  cases hmove with
  | stays hworker =>
      refine Or.inl ⟨hchannel, ?_⟩
      rintro rfl
      cases hworker
  | takes hp =>
      cases hchannel
      exact Or.inr ⟨rfl, hp⟩
  | kills => exact Or.inl ⟨hchannel, nofun⟩
  | waits => exact Or.inl ⟨hchannel, nofun⟩
  | unlinks => exact Or.inl ⟨hchannel, nofun⟩
  | _ => cases hchannel

/-- The worker deletes no record that another one holds. -/
theorem not_unlinked (hrec : s.ledger.RecordsOk) {a : Place} (ha : a ≠ .worker)
    (hheld : (s.ledger.holding a).ptr = some p) (chanId : String) :
    s.worker ≠ .unlinked chanId p := by
  intro hunlinked
  have hptr : (s.ledger.holding .worker).ptr = some p := by
    rw [holding_worker hunlinked]
    rfl
  exact ha (hrec.exclusive a .worker p hheld hptr)

theorem NamesOk.step (hrec : s.ledger.RecordsOk) (hnames : s.NamesOk) (h : step s e = some s') :
    s'.NamesOk where
  threads := by
    intro t name p ht
    rcases holding_step h ht with hold | hnothing | ⟨_, _, _, _, hforked⟩ |
      ⟨u, made, channel, param, fpid, rfl, hforked, hbuilt⟩
    · have hdelete : ∀ chanId, s.worker ≠ .unlinked chanId p := by
        apply not_unlinked hrec (a := .thread t) (by simp)
        exact congrArg Holding.ptr hold
      exact records_step hrec h (fun _ => hdelete) (hnames.threads t name p hold)
    · cases hnothing
    · cases hforked
    · cases hbuilt
      obtain ⟨channel', param', fpid', hforked', rfl⟩ := createBuild_cases h
      obtain ⟨rfl, rfl, rfl⟩ := Pc.createForked.inj (hforked.symm.trans hforked')
      exact ⟨_, Function.update_self .., rfl, rfl⟩
  entries := by
    intro name p hp
    rcases entry_step h hp with hold | ⟨u, rfl, hbuilt⟩
    · have hdelete : ∀ chanId, s.worker ≠ .unlinked chanId p := by
        apply not_unlinked hrec (a := .entry name) (by simp)
        rw [holding_entry hold]
        rfl
      exact records_step hrec h (fun _ => hdelete) (hnames.entries name p hold)
    · have hheld : (s.threads u).holding = .channel name p := by
        rw [hbuilt]
        rfl
      exact records_step hrec h nofun (hnames.threads u name p hheld)
  worker := by
    intro name p hchannel
    rcases worker_channel_step h hchannel with ⟨hold, hdelete⟩ | ⟨rfl, hp⟩
    · exact records_step hrec h (fun he => absurd he hdelete) (hnames.worker name p hold)
    · exact records_step hrec h nofun (hnames.entries name p hp)

theorem init_namesOk : Manager.init.NamesOk where
  threads := nofun
  entries := nofun
  worker := nofun

end Manager

/-- What stood in the tree before the program started. -/
inductive Kind where
  | regular
  | fifo
  | other
deriving DecidableEq

/-- A node from before the program started, or a FIFO that it made for a channel. -/
inductive Node where
  | stood (kind : Kind)
  | made (channel : String)
deriving DecidableEq

abbrev Files := FileTree Nat Node

def Files.start (prior : FileTree Nat Kind) : Files := prior.map .stood

namespace Manager

/-- The channel that a step makes a FIFO for, unless `mkfifo` fails for a reason outside the tree. -/
def makes (s : Manager) : Event → Option String
  | .createBuild t true =>
      match s.threads t with
      | .createForked channel _ _ => some channel
      | _ => none
  | .childFifo pid true => (s.children pid).map Child.chan
  | _ => none

/-- The path that a step unlinks. -/
def unlinks (s : Manager) : Event → Option String
  | .workerUnlink =>
      match s.worker with
      | .waited _ lChannel => (s.heap lChannel).map Channel.fifoName
      | _ => none
  | _ => none

end Manager

/-- The files after a step of the manager. -/
def fileNote (s : Manager) (e : Event) (files : Files) : Files :=
  match s.makes e, s.unlinks e with
  | some channel, _ => files.create (fifoPath channel).toList (.made channel)
  | none, some path => files.unlink path.toList
  | none, none => files

/-- The name is a single component of a path, and names an entry. -/
def Plain (channel : String) : Prop := '/' ∉ channel.toList ∧ IsName channel.toList

theorem fifoPath_toList (channel : String) :
    (fifoPath channel).toList = "/tmp".toList ++ '/' :: channel.toList := by
  rw [fifoPath, String.toList_append]
  rfl

theorem childOf_tmp (files : Files) {channel : String} (hplain : Plain channel) :
    files.ChildOf (fifoPath channel).toList "/tmp".toList := by
  rw [fifoPath_toList]
  exact childOf_append files _ hplain.1 hplain.2

theorem Plain.eq_of_lastComponent {channel channel' : String} (h : Plain channel)
    (h' : Plain channel')
    (hlast : lastComponent channel.toList = lastComponent channel'.toList) : channel = channel' := by
  rw [lastComponent_single h.1, lastComponent_single h'.1] at hlast
  exact String.toList_inj.mp hlast

variable {prior : FileTree Nat Kind} {files : Files} {s s' : Manager} {e : Event}

/-- An entry stood there from the start, or it is the FIFO of a channel whose name ends in that of the
entry. -/
def FilesOk (prior : FileTree Nat Kind) (files : Files) : Prop :=
  ∀ d c node, files.entry d c = some node → (Files.start prior).entry d c = some node ∨
    ∃ maker, node = .leaf (.made maker) ∧ lastComponent maker.toList = c

theorem filesOk_note (hfiles : FilesOk prior files) (s : Manager) (e : Event) :
    FilesOk prior (fileNote s e files) := by
  intro d c node hnode
  unfold fileNote at hnode
  cases hmakes : s.makes e with
  | some channel =>
      simp only [hmakes] at hnode
      rcases entry_create hnode with hold | ⟨hplace, rfl⟩
      · exact hfiles d c node hold
      · refine Or.inr ⟨channel, rfl, ?_⟩
        rw [lastComponent_of_place hplace, fifoPath_toList, lastComponent_append]
  | none =>
      cases hunlinks : s.unlinks e with
      | some path =>
          simp only [hmakes, hunlinks] at hnode
          exact hfiles d c node (entry_unlink hnode)
      | none =>
          simp only [hmakes, hunlinks] at hnode
          exact hfiles d c node hnode

/-- What the deletion worker may unlink for a channel: the path of the channel, which is in `/tmp` for a
plain name, and there a node that stood from the start, or a FIFO that was made for a channel whose
name ends in the same component. -/
structure Unlinks (prior : FileTree Nat Kind) (files : Files) (channel path : String) : Prop where
  path_eq : path = fifoPath channel
  child : Plain channel → files.ChildOf path.toList "/tmp".toList
  node : ∀ d c node, files.unlinked path.toList = some (d, c, node) →
    (Files.start prior).entry d c = some node ∨ ∃ maker, node = .leaf (.made maker) ∧
      lastComponent maker.toList = lastComponent channel.toList ∧
      (Plain maker → Plain channel → maker = channel)

theorem unlinks_of_filesOk (hfiles : FilesOk prior files) (channel : String) :
    Unlinks prior files channel (fifoPath channel) where
  path_eq := rfl
  child := childOf_tmp files
  node := by
    intro d c node hunlinked
    obtain ⟨hplace, hentry, _⟩ := unlinked_iff.mp hunlinked
    rcases hfiles d c node hentry with hstood | ⟨maker, rfl, hlast⟩
    · exact Or.inl hstood
    · have hsame : lastComponent maker.toList = lastComponent channel.toList := by
        rw [hlast, lastComponent_of_place hplace, fifoPath_toList, lastComponent_append]
      exact Or.inr ⟨maker, rfl, hsame, fun h h' => h.eq_of_lastComponent h' hsame⟩

/-- The FIFO of a channel is made in `/tmp` if its name is plain; the worker unlinks no other path than
that of the channel which `createChannel` has recorded. -/
structure Confined (prior : FileTree Nat Kind) (x : Manager × Files) (e : Event) : Prop where
  makes : ∀ channel, x.1.makes e = some channel → Plain channel →
    x.2.ChildOf (fifoPath channel).toList "/tmp".toList
  unlinks : ∀ path, x.1.unlinks e = some path → ∃ channel p, x.1.worker = .waited channel p ∧
    x.1.Records channel p ∧ Unlinks prior x.2 channel path

/-- What a state of the manager and the files keeps. -/
structure NodesOk (prior : FileTree Nat Kind) (x : Manager × Files) : Prop where
  records : x.1.ledger.RecordsOk
  names : x.1.NamesOk
  files : FilesOk prior x.2

theorem nodesOk_step {x x' : Manager × Files} (hx : NodesOk prior x)
    (h : recorded step fileNote x e = some x') : NodesOk prior x' := by
  obtain ⟨hstep, hnote⟩ := recorded_eq_some.mp h
  refine ⟨recordsOk_step hx.records hstep, hx.names.step hx.records hstep, ?_⟩
  rw [← hnote]
  exact filesOk_note hx.files x.1 e

theorem confined_of_nodesOk {x : Manager × Files} (hx : NodesOk prior x) (e : Event) :
    Confined prior x e where
  makes := fun channel _ hplain => childOf_tmp x.2 hplain
  unlinks := by
    intro path hpath
    cases e with
    | workerUnlink =>
        cases hworker : x.1.worker with
        | waited channel p =>
            have hrecords := hx.names.worker channel p (by rw [hworker]; rfl)
            obtain ⟨c, hc, _, hfifo⟩ := id hrecords
            simp only [Manager.unlinks, hworker, hc, Option.map_some, Option.some.injEq] at hpath
            refine ⟨channel, p, rfl, hrecords, ?_⟩
            rw [← hpath, hfifo]
            exact unlinks_of_filesOk hx.files channel
        | _ => simp [Manager.unlinks, hworker] at hpath
    | _ => cases hpath

theorem init_nodesOk (prior : FileTree Nat Kind) : NodesOk prior (Manager.init, Files.start prior) where
  records := init_recordsOk
  names := Manager.init_namesOk
  files := fun _ _ _ hnode => Or.inl hnode

/-- In every run, whatever the names of the channels and whatever files there are, the worker unlinks
the paths of channels only. -/
theorem unlinks_confined (prior : FileTree Nat Kind) (events : List Event) :
    StepsMeet (recorded step fileNote) (Confined prior) (Manager.init, Files.start prior) events := by
  apply stepsMeet_of_invariant (P := NodesOk prior) ?_ ?_ (init_nodesOk prior)
  · intro x e x' hx h
    exact nodesOk_step hx h
  · intro x e hx
    exact confined_of_nodesOk hx e

/-- The FIFO of every channel is made in `/tmp`, and the worker removes no node but the FIFO that was
made for the channel. -/
structure ConfinedToTmp (x : Manager × Files) (e : Event) : Prop where
  makes : ∀ channel, x.1.makes e = some channel →
    x.2.ChildOf (fifoPath channel).toList "/tmp".toList
  unlinks : ∀ path, x.1.unlinks e = some path → ∃ channel p, x.1.worker = .waited channel p ∧
    ∀ d c node, x.2.unlinked path.toList = some (d, c, node) → node = .leaf (.made channel)

/-- `/tmp` with a regular file, and another directory. -/
def someFiles : FileTree Nat Kind where
  root := 0
  parent _ := 0
  entry
    | 0, ['t', 'm', 'p'] => some (.dir 1)
    | 0, ['e', 't', 'c'] => some (.dir 2)
    | 1, ['x'] => some (.leaf .regular)
    | _, _ => none
  maxLinks := 40

/-- The steps that bring the worker to its `unlink`. -/
def closing (name : String) (pid : Int) : List Event := .delChannel name :: waiting pid

private theorem tmp_components :
    components "/tmp".toList = [[], ['t', 'm', 'p']] := by rfl

private theorem start_outside :
    (Files.start someFiles).place (fifoPath "../etc/x").toList = some (2, ['x']) ∧
      (Files.start someFiles).directory "/tmp".toList = some 1 := by
  have hpath : components (fifoPath "../etc/x").toList =
      [[], ['t', 'm', 'p'], ['.', '.'], ['e', 't', 'c'], ['x']] := by rfl
  rw [place, lastComponent, directory, hpath, tmp_components]
  simp [walk, Files.start, someFiles, FileTree.map, Entry.map]

private theorem start_x : (Files.start someFiles).place (fifoPath "x").toList = some (1, ['x']) ∧
    (Files.start someFiles).entry 1 ['x'] = some (.leaf (.stood .regular)) := by
  have hpath : components (fifoPath "x").toList = [[], ['t', 'm', 'p'], ['x']] := by rfl
  rw [place, lastComponent, hpath]
  simp [walk, Files.start, someFiles, FileTree.map, Entry.map]

theorem place_y : (Files.start someFiles).place (fifoPath "y").toList = some (1, ['y']) := by
  have hpath : components (fifoPath "y").toList = [[], ['t', 'm', 'p'], ['y']] := by rfl
  rw [place, lastComponent, hpath]
  simp [walk, Files.start, someFiles, FileTree.map, Entry.map]

private theorem start_y : (Files.start someFiles).create (fifoPath "y").toList (.made "y") =
    (Files.start someFiles).setEntry 1 ['y'] (some (.leaf (.made "y"))) :=
  create_of_none _ place_y (by decide) rfl

private theorem y_again : ((Files.start someFiles).setEntry 1 ['y'] (some (.leaf (.made "y")))).place
    (fifoPath "./y").toList = some (1, ['y']) := by
  have hpath : components (fifoPath "./y").toList =
      [[], ['t', 'm', 'p'], ['.'], ['y']] := by rfl
  rw [place, lastComponent, hpath]
  simp [walk, Files.start, someFiles, FileTree.map, Entry.map, setEntry]

private theorem run_outside (files : Files) : ∃ s x, run (recorded step fileNote) (Manager.init, files)
    [.createCheck 0 "../etc/x" {}, .createFork 0 7] = some (s, files) ∧
      recorded step fileNote (s, files) (.createBuild 0 true) = some x ∧
      s.makes (.createBuild 0 true) = some "../etc/x" := ⟨_, _, rfl, rfl, rfl⟩

private theorem run_x (files : Files) : ∃ s x, run (recorded step fileNote) (Manager.init, files)
    (creation "x" 7 ++ closing "x" 7) =
        some (s, files.create (fifoPath "x").toList (.made "x")) ∧
      recorded step fileNote (s, files.create (fifoPath "x").toList (.made "x")) .workerUnlink =
        some x ∧
      s.unlinks .workerUnlink = some (fifoPath "x") := ⟨_, _, rfl, rfl, rfl⟩

private theorem run_y (files : Files) : ∃ s x, run (recorded step fileNote) (Manager.init, files)
    (creation "y" 7 ++ creation "./y" 8 ++ closing "./y" 8) =
        some (s, (files.create (fifoPath "y").toList (.made "y")).create (fifoPath "./y").toList
          (.made "./y")) ∧
      recorded step fileNote (s, (files.create (fifoPath "y").toList (.made "y")).create
        (fifoPath "./y").toList (.made "./y")) .workerUnlink = some x ∧
      s.worker = .waited "./y" 1 ∧ s.unlinks .workerUnlink = some (fifoPath "./y") :=
  ⟨_, _, rfl, rfl, rfl, rfl⟩

/-- A name with `..` leads out of `/tmp`; a file that was there is unlinked; one channel has its FIFO
unlinked with another one. -/
theorem names_not_confined :
    ¬ StepsMeet (recorded step fileNote) ConfinedToTmp (Manager.init, Files.start someFiles)
        ([.createCheck 0 "../etc/x" {}, .createFork 0 7] ++ [.createBuild 0 true]) ∧
      ¬ StepsMeet (recorded step fileNote) ConfinedToTmp (Manager.init, Files.start someFiles)
        (creation "x" 7 ++ closing "x" 7 ++ [.workerUnlink]) ∧
      ¬ StepsMeet (recorded step fileNote) ConfinedToTmp (Manager.init, Files.start someFiles)
        (creation "y" 7 ++ creation "./y" 8 ++ closing "./y" 8 ++ [.workerUnlink]) := by
  refine ⟨?_, ?_, ?_⟩
  · intro h
    obtain ⟨s, x, hrun, hstep, hmakes⟩ := run_outside (Files.start someFiles)
    have hchild := (h.last hrun hstep).makes "../etc/x" hmakes 2 ['x'] start_outside.1
    rw [start_outside.2] at hchild
    cases hchild.1
  · intro h
    obtain ⟨s, x, hrun, hstep, hunlinks⟩ := run_x (Files.start someFiles)
    obtain ⟨channel, p, _, hnode⟩ := (h.last hrun hstep).unlinks _ hunlinks
    rw [create_of_entry _ start_x.1 start_x.2] at hnode
    have hunlinked := unlinked_iff.mpr ⟨start_x.1, start_x.2, nofun, by decide⟩
    cases hnode 1 ['x'] _ hunlinked
  · intro h
    obtain ⟨s, x, hrun, hstep, hworker, hunlinks⟩ := run_y (Files.start someFiles)
    obtain ⟨channel, p, hwaited, hnode⟩ := (h.last hrun hstep).unlinks _ hunlinks
    obtain ⟨rfl, _⟩ := WorkerPc.waited.inj (hworker.symm.trans hwaited)
    have hentry := entry_setEntry (Files.start someFiles) 1 1 ['y'] ['y'] (some (.leaf (.made "y")))
    rw [if_pos ⟨rfl, rfl⟩] at hentry
    rw [start_y, create_of_entry _ y_again hentry] at hnode
    have hunlinked := unlinked_iff.mpr ⟨y_again, hentry, nofun, by decide⟩
    have hsame := hnode 1 ['y'] _ hunlinked
    simp at hsame

end GMProxy.TdChannel
