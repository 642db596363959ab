import GMProxy.Channel.Unlink

/-!
# The FIFO nodes of live channels

The worker takes a channel out of the table first; much later it unlinks the FIFO, whoever has come to
need the node by then. Which node a name stands for is decided by the files: two names can share one.
-/

namespace GMProxy.TdChannel

open Machine FileTree

/-- A FIFO from before the program started, or one that it made. -/
def Node.IsFifo : Node → Prop
  | stood kind => kind = .fifo
  | made _ => True

/-- The path of the channel leads to a FIFO. -/
def HasFifo (files : Files) (name : String) : Prop :=
  ∃ d c node, files.place (fifoPath name).toList = some (d, c) ∧ IsName c ∧
    files.entry d c = some (.leaf node) ∧ node.IsFifo

def FreeOrFifo : Option (Entry Nat Node) → Prop
  | none => True
  | some (.leaf node) => node.IsFifo
  | some (.dir _) | some (.symlink _) => False

/-- The path of the channel leads to a name that is free or has a FIFO. -/
def Open (files : Files) (name : String) : Prop :=
  ∃ d c, files.place (fifoPath name).toList = some (d, c) ∧ IsName c ∧ FreeOrFifo (files.entry d c)

/-- Where `mkfifo` is called, it makes the FIFO or finds it there. -/
def Event.made : Event → Bool
  | createBuild _ made => made
  | childFifo _ made => made
  | _ => true

/-- `mkfifo` succeeds at a free name, or reports `EEXIST` for a FIFO. -/
def MkfifoWorks (x : Manager × Files) (e : Event) : Prop :=
  e.made = true ∧ ∀ channel, x.1.makes e = some channel → Open x.2 channel

/-- A channel in the table, or one that `createChannel` has made and is going to insert. -/
def Manager.NeedsFifo (s : Manager) (name : String) : Prop :=
  (∃ p, s.chanMap.lookup name = some (some p)) ∨
    ∃ t p, (s.threads t).holding = .channel name p

/-- The worker unlinks a node that no channel needs by then. -/
def UnlinksUnused (x : Manager × Files) (e : Event) : Prop :=
  ∀ path d c node, x.1.unlinks e = some path → x.2.unlinked path.toList = some (d, c, node) →
    ∀ name, x.1.NeedsFifo name → x.2.place (fifoPath name).toList ≠ some (d, c)

/-- Every channel in the table has its FIFO. -/
def EntriesHaveFifo (x : Manager × Files) : Prop :=
  ∀ name p, x.1.chanMap.lookup name = some (some p) → HasFifo x.2 name

variable {prior : FileTree Nat Kind} {files : Files} {s s' : Manager} {x x' : Manager × Files}
  {e : Event} {name channel : String} {d : Nat} {c : List Char}

theorem FreeOrFifo.deadEnd {entry : Option (Entry Nat Node)} (h : FreeOrFifo entry) :
    DeadEnd entry := by
  cases entry with
  | none => trivial
  | some entry =>
      cases entry with
      | leaf node => trivial
      | dir d => exact h
      | symlink target => exact h

theorem HasFifo.isOpen (h : HasFifo files name) : Open files name := by
  obtain ⟨d, c, node, hplace, hname, hentry, hfifo⟩ := h
  refine ⟨d, c, hplace, hname, ?_⟩
  rw [hentry]
  exact hfifo

theorem Open.freeOrFifo (h : Open files channel)
    (hplace : files.place (fifoPath channel).toList = some (d, c)) :
    FreeOrFifo (files.entry d c) := by
  obtain ⟨d', c', hplace', -, hentry⟩ := h
  cases hplace.symm.trans hplace'
  exact hentry

section SetEntry

variable {new : Option (Entry Nat Node)}

theorem Open.setNode (h : Open files name) (hold : FreeOrFifo (files.entry d c))
    (hnew : FreeOrFifo new) : Open (files.setEntry d c new) name := by
  obtain ⟨d', c', hplace, hname, hentry⟩ := h
  refine ⟨d', c', (place_setEntry hold.deadEnd hnew.deadEnd _).trans hplace, hname, ?_⟩
  rw [entry_setEntry]
  split
  · exact hnew
  · exact hentry

theorem HasFifo.setNode (h : HasFifo files name) (hold : FreeOrFifo (files.entry d c))
    (hnew : FreeOrFifo new)
    (hother : new = none → files.place (fifoPath name).toList ≠ some (d, c)) :
    HasFifo (files.setEntry d c new) name := by
  obtain ⟨d', c', node, hplace, hname, hentry, hfifo⟩ := h
  have hplace' := (place_setEntry hold.deadEnd hnew.deadEnd (fifoPath name).toList).trans hplace
  by_cases hsame : d' = d ∧ c' = c
  · obtain ⟨rfl, rfl⟩ := hsame
    have hentry' : (files.setEntry d' c' new).entry d' c' = new := by
      rw [entry_setEntry, if_pos ⟨rfl, rfl⟩]
    cases new with
    | none => exact absurd hplace (hother rfl)
    | some entry =>
        cases entry with
        | leaf node' => exact ⟨d', c', node', hplace', hname, hentry', hnew⟩
        | dir d'' => exact hnew.elim
        | symlink target => exact hnew.elim
  · refine ⟨d', c', node, hplace', hname, ?_, hfifo⟩
    rw [entry_setEntry, if_neg hsame, hentry]

end SetEntry

/-- `mkfifo` gives the channel its FIFO and leaves every other name its own. -/
theorem create_open (hopen : Open files channel) :
    let files' := files.create (fifoPath channel).toList (.made channel)
    HasFifo files' channel ∧ (∀ name, Open files name → Open files' name) ∧
      ∀ name, HasFifo files name → HasFifo files' name := by
  intro files'
  obtain ⟨d, c, hplace, hname, hentry⟩ := id hopen
  cases he : files.entry d c with
  | some entry =>
      have hsame : files' = files := create_of_entry _ hplace he
      rw [he] at hentry
      rw [hsame]
      refine ⟨?_, fun _ => id, fun _ => id⟩
      cases entry with
      | leaf node => exact ⟨d, c, node, hplace, hname, he, hentry⟩
      | dir d' => exact hentry.elim
      | symlink target => exact hentry.elim
  | none =>
      have hset : files' = files.setEntry d c (some (.leaf (.made channel))) :=
        create_of_none _ hplace hname he
      have hnew : FreeOrFifo (some (.leaf (.made channel))) := trivial
      rw [hset]
      refine ⟨⟨d, c, .made channel, ?_, hname, ?_, trivial⟩, fun name h => h.setNode hentry hnew,
        fun name h => h.setNode hentry hnew nofun⟩
      · exact (place_setEntry hentry.deadEnd hnew.deadEnd _).trans hplace
      · rw [entry_setEntry, if_pos ⟨rfl, rfl⟩]

theorem place_create (hopen : Open files channel) (path : List Char) :
    (files.create (fifoPath channel).toList (.made channel)).place path = files.place path := by
  obtain ⟨d, c, hplace, hname, hentry⟩ := hopen
  cases he : files.entry d c with
  | some entry => rw [create_of_entry _ hplace he]
  | none =>
      have hnew : FreeOrFifo (some (.leaf (.made channel))) := trivial
      rw [create_of_none _ hplace hname he]
      exact place_setEntry hentry.deadEnd hnew.deadEnd path

theorem unlink_open (hopen : Open files channel) :
    let files' := files.unlink (fifoPath channel).toList
    (∀ name, Open files name → Open files' name) ∧
      ∀ name, HasFifo files name →
        (∀ d c node, files.unlinked (fifoPath channel).toList = some (d, c, node) →
          files.place (fifoPath name).toList ≠ some (d, c)) → HasFifo files' name := by
  intro files'
  cases hunlinked : files.unlinked (fifoPath channel).toList with
  | none =>
      have hsame : files' = files := unlink_of_none hunlinked
      rw [hsame]
      exact ⟨fun _ => id, fun _ h _ => h⟩
  | some found =>
      obtain ⟨d, c, node⟩ := found
      have hset : files' = files.setEntry d c none := unlink_of_some hunlinked
      have hold := hopen.freeOrFifo (unlinked_iff.mp hunlinked).1
      rw [hset]
      exact ⟨fun name h => h.setNode hold trivial,
        fun name h hother => h.setNode hold trivial fun _ => hother d c node rfl⟩

/-- The channel whose node is unlinked, under whatever name, has none any more. -/
theorem not_hasFifo_unlink (hopen : Open files channel)
    (hsame : files.place (fifoPath name).toList = files.place (fifoPath channel).toList) :
    ¬ HasFifo (files.unlink (fifoPath channel).toList) name := by
  intro hfifo
  obtain ⟨d, c, hplace, hname, hentry⟩ := id hopen
  cases hunlinked : files.unlinked (fifoPath channel).toList with
  | none =>
      rw [unlink_of_none hunlinked] at hfifo
      obtain ⟨d', c', node, hplace', -, he, -⟩ := hfifo
      cases (hsame.trans hplace).symm.trans hplace'
      have hfound := unlinked_iff.mpr ⟨hplace, he, nofun, hname⟩
      cases hunlinked.symm.trans hfound
  | some found =>
      obtain ⟨d', c', node⟩ := found
      have hplace' := (unlinked_iff.mp hunlinked).1
      rw [unlink_of_some hunlinked] at hfifo
      obtain ⟨d'', c'', node', hplace'', -, he, -⟩ := hfifo
      have hnone : DeadEnd (none : Option (Entry Nat Node)) := trivial
      rw [place_setEntry (hopen.freeOrFifo hplace').deadEnd hnone, hsame, hplace'] at hplace''
      cases hplace''
      rw [entry_setEntry, if_pos ⟨rfl, rfl⟩] at he
      cases he

/-- A name needs its FIFO after a step if it did before, or if the step makes the FIFO. -/
theorem needsFifo_step (hmade : e.made = true) (h : step s e = some s') (hneeds : s'.NeedsFifo name) :
    s.NeedsFifo name ∨ s.makes e = some name := by
  obtain ⟨p, hp⟩ | ⟨u, p, hu⟩ := hneeds
  · left
    rcases entry_step h hp with hold | ⟨t, -, hbuilt⟩
    · exact Or.inl ⟨p, hold⟩
    · exact Or.inr ⟨t, p, by rw [hbuilt]; rfl⟩
  · rcases holding_step h hu with hold | hnothing | ⟨t, channel, fpid, -, hforked⟩ |
      ⟨t, made, channel, param, fpid, rfl, hforked, hbuilt⟩
    · exact Or.inl (Or.inr ⟨u, p, hold⟩)
    · cases hnothing
    · cases hforked
    · right
      obtain rfl : made = true := hmade
      cases hbuilt
      simp only [Manager.makes, hforked]

/-- Every channel that needs its FIFO has it, and the worker stands where it can be made again. -/
structure FifosOk (prior : FileTree Nat Kind) (x : Manager × Files) : Prop where
  nodes : NodesOk prior x
  needed : ∀ name, x.1.NeedsFifo name → HasFifo x.2 name
  worker : ∀ name p, x.1.worker.channel = some (name, p) → Open x.2 name

/-- What the worker unlinks is the path of the channel that it has taken. -/
theorem unlinks_path (hx : FifosOk prior x) {path : String} (hpath : x.1.unlinks e = some path) :
    ∃ channel, path = fifoPath channel ∧ Open x.2 channel := by
  obtain ⟨channel, p, hwaited, -, hunlinks⟩ := (confined_of_nodesOk hx.nodes e).unlinks path hpath
  exact ⟨channel, hunlinks.path_eq, hx.worker channel p (by rw [hwaited]; rfl)⟩

theorem note_open (hx : FifosOk prior x) (hworks : MkfifoWorks x e) (hopen : Open x.2 name) :
    Open (fileNote x.1 e x.2) name := by
  unfold fileNote
  cases hmakes : x.1.makes e with
  | some channel => exact (create_open (hworks.2 channel hmakes)).2.1 name hopen
  | none =>
      cases hunlinks : x.1.unlinks e with
      | none => exact hopen
      | some path =>
          obtain ⟨channel, rfl, hchannel⟩ := unlinks_path hx hunlinks
          exact (unlink_open hchannel).1 name hopen

theorem note_hasFifo (hx : FifosOk prior x) (hworks : MkfifoWorks x e) (hunused : UnlinksUnused x e)
    (hneeds : x.1.NeedsFifo name) : HasFifo (fileNote x.1 e x.2) name := by
  have hfifo := hx.needed name hneeds
  unfold fileNote
  cases hmakes : x.1.makes e with
  | some channel => exact (create_open (hworks.2 channel hmakes)).2.2 name hfifo
  | none =>
      cases hunlinks : x.1.unlinks e with
      | none => exact hfifo
      | some path =>
          obtain ⟨channel, rfl, hchannel⟩ := unlinks_path hx hunlinks
          exact (unlink_open hchannel).2 name hfifo fun d c node hunlinked =>
            hunused _ d c node hunlinks hunlinked name hneeds

theorem fifosOk_step (hx : FifosOk prior x) (hworks : MkfifoWorks x e) (hunused : UnlinksUnused x e)
    (h : recorded step fileNote x e = some x') : FifosOk prior x' := by
  obtain ⟨hstep, hnote⟩ := recorded_eq_some.mp h
  refine ⟨nodesOk_step hx.nodes h, fun name hneeds => ?_, fun name p hchannel => ?_⟩
  · rw [← hnote]
    rcases needsFifo_step hworks.1 hstep hneeds with hold | hmakes
    · exact note_hasFifo hx hworks hunused hold
    · simp only [fileNote, hmakes]
      exact (create_open (hworks.2 name hmakes)).1
  · rw [← hnote]
    apply note_open hx hworks
    rcases Manager.worker_channel_step hstep hchannel with ⟨hold, -⟩ | ⟨-, hp⟩
    · exact hx.worker name p hold
    · exact (hx.needed name (Or.inl ⟨p, hp⟩)).isOpen

private theorem init_fifosOk (prior : FileTree Nat Kind) :
    FifosOk prior (Manager.init, Files.start prior) where
  nodes := init_nodesOk prior
  needed := by
    rintro name (⟨p, hp⟩ | ⟨t, p, hheld⟩)
    · cases hp
    · cases hheld
  worker := nofun

private theorem built_of_holding {u : Nat} {p : Ptr}
    (hu : (s.threads u).holding = .channel name p) : s.threads u = .createBuilt name p := by
  cases hpc : s.threads u with
  | createBuilt channel p' =>
      rw [hpc] at hu
      cases hu
      rfl
  | _ =>
      rw [hpc] at hu
      cases hu

private theorem needed_loses {x₀ : Manager × Files} {events : List Event}
    (hrun : run (recorded step fileNote) x₀ events = some x) (hfree : x.1.chanMapLocked = false)
    (hneeds : x.1.NeedsFifo name) (hlost : ¬ HasFifo x.2 name) :
    ∃ more, ¬ StatesHold (recorded step fileNote) EntriesHaveFifo x₀ (events ++ more) := by
  obtain ⟨p, hp⟩ | ⟨u, p, hu⟩ := hneeds
  · refine ⟨[], fun hall => ?_⟩
    rw [List.append_nil] at hall
    exact hlost (hall.last hrun name p hp)
  · have hbuilt := built_of_holding hu
    obtain ⟨s', hinsert⟩ : ∃ s', step x.1 (.createInsert u) = some s' := by
      simp only [step, Manager.createInsert, hfree, hbuilt]
      exact ⟨_, rfl⟩
    refine ⟨[.createInsert u], fun hall => ?_⟩
    have hlonger : run (recorded step fileNote) x₀ (events ++ [.createInsert u]) = some (s', x.2) := by
      rw [run_append, hrun, Option.bind_some]
      exact run_cons (recorded_eq_some.mpr ⟨hinsert, rfl⟩)
    obtain ⟨-, channel, p', hbuilt', rfl⟩ := Manager.createInsert_cases hinsert
    obtain ⟨rfl, rfl⟩ := Pc.createBuilt.inj (hbuilt.symm.trans hbuilt')
    exact hlost (hall.last hlonger name p (Finmap.lookup_insert x.1.chanMap))

private theorem unlink_loses {x₀ : Manager × Files} {events : List Event} (hx : FifosOk prior x)
    (hrun : run (recorded step fileNote) x₀ events = some x) (hfree : x.1.chanMapLocked = false)
    (h : recorded step fileNote x e = some x') (hused : ¬ UnlinksUnused x e) :
    ∃ more, ¬ StatesHold (recorded step fileNote) EntriesHaveFifo x₀ (events ++ e :: more) := by
  simp only [UnlinksUnused, not_forall, not_not] at hused
  obtain ⟨path, d, c, node, hpath, hunlinked, name, hneeds, hplace⟩ := hused
  obtain ⟨channel, rfl, hchannel⟩ := unlinks_path hx hpath
  have hsame := hplace.trans (unlinked_iff.mp hunlinked).1.symm
  cases e with
  | workerUnlink =>
      obtain ⟨hstep, hnote⟩ := recorded_eq_some.mp h
      obtain ⟨chanId, q, r, -, -, hs'⟩ := Manager.workerUnlink_cases hstep
      have hfiles : x'.2 = x.2.unlink (fifoPath channel).toList := by
        rw [← hnote]
        simp only [fileNote, Manager.makes, hpath]
      have hwhole : run (recorded step fileNote) x₀ (events ++ [.workerUnlink]) = some x' := by
        rw [run_append, hrun, Option.bind_some]
        exact run_cons h
      have hfree' : x'.1.chanMapLocked = false := by
        rw [hs']
        exact hfree
      have hneeds' : x'.1.NeedsFifo name := by
        rw [hs']
        exact hneeds
      have hlost : ¬ HasFifo x'.2 name := by
        rw [hfiles]
        exact not_hasFifo_unlink hchannel hsame
      obtain ⟨more, hmore⟩ := needed_loses hwhole hfree' hneeds' hlost
      exact ⟨more, by rwa [List.append_assoc] at hmore⟩
  | _ => cases hpath

/-- Suppose that `mkfifo` works. In a run in which the worker unlinks no node that a channel needs by
then, every channel in the table has its FIFO. Where it unlinks one, a channel comes to be in the table
without it. -/
theorem entriesHaveFifo_of_unlinksUnused (prior : FileTree Nat Kind) (events : List Event)
    (hworks : StepsMeet (recorded step fileNote) MkfifoWorks (Manager.init, Files.start prior) events)
    (hunused : StepsMeet (recorded step fileNote) UnlinksUnused (Manager.init, Files.start prior)
      events) :
    StatesHold (recorded step fileNote) EntriesHaveFifo (Manager.init, Files.start prior) events ∧
      ∀ x e x', run (recorded step fileNote) (Manager.init, Files.start prior) events = some x →
        x.1.chanMapLocked = false → recorded step fileNote x e = some x' → ¬ UnlinksUnused x e →
          ∃ more, ¬ StatesHold (recorded step fileNote) EntriesHaveFifo
            (Manager.init, Files.start prior) (events ++ e :: more) := by
  have hstates := (hworks.and hunused).statesHold (P := FifosOk prior)
    (fun x e x' hx hC h => fifosOk_step hx hC.1 hC.2 h) (init_fifosOk prior)
  constructor
  · exact hstates.mono fun x hx name p hp => hx.needed name (Or.inl ⟨p, hp⟩)
  · intro x e x' hrun hfree h hused
    exact unlink_loses (hstates.last hrun) hrun hfree h hused

private theorem open_y : Open (Files.start someFiles) "y" :=
  ⟨1, ['y'], place_y, by decide, trivial⟩

/-- A channel that is created, and deleted up to the end of its child. -/
private def reaping : List Event :=
  [.createCheck 0 "y" {}, .createFork 0 5, .createBuild 0 true, .childFifo 5 true, .createInsert 0,
    .delChannel "y", .workerPop, .workerTake, .workerKill, .workerWait 5]

private theorem reaping_unneeded (files : Files) :
    ∃ x, run (recorded step fileNote) (Manager.init, files) reaping = some x ∧
      ∀ name, ¬ x.1.NeedsFifo name := by
  refine ⟨_, rfl, ?_⟩
  rintro name (⟨p, hp⟩ | ⟨t, p, hheld⟩)
  · have hkey := Finmap.mem_keys.mpr (Finmap.mem_of_lookup_eq_some hp)
    exact absurd hkey (Finset.notMem_empty name)
  · rcases t with _ | t
    · cases hheld
    · cases hheld

private theorem reaping_works {files : Files} (hopen : Open files "y") :
    StepsMeet (recorded step fileNote) MkfifoWorks (Manager.init, files)
      (reaping ++ [.workerUnlink]) := by
  have hmade := (create_open hopen).2.1 "y" hopen
  have hrest : ∀ x : Manager × Files, ∀ e ∈ [Event.createInsert 0, .delChannel "y", .workerPop,
      .workerTake, .workerKill, .workerWait 5, .workerUnlink], MkfifoWorks x e := by
    intro x e he
    simp only [List.mem_cons, List.not_mem_nil, or_false] at he
    rcases he with rfl | rfl | rfl | rfl | rfl | rfl | rfl <;> exact ⟨rfl, nofun⟩
  refine (stepsMeet_cons rfl).mpr ⟨⟨rfl, nofun⟩, (stepsMeet_cons rfl).mpr ⟨⟨rfl, nofun⟩,
    (stepsMeet_cons rfl).mpr ⟨⟨rfl, ?_⟩, (stepsMeet_cons rfl).mpr ⟨⟨rfl, ?_⟩,
      stepsMeet_of_forall hrest⟩⟩⟩⟩
  · intro channel hmakes
    obtain rfl := Option.some.inj hmakes
    exact hopen
  · intro channel hmakes
    obtain rfl := Option.some.inj hmakes
    exact hmade

theorem reaping_entriesHaveFifo :
    StatesHold (recorded step fileNote) EntriesHaveFifo (Manager.init, Files.start someFiles)
      (reaping ++ [.workerUnlink]) := by
  obtain ⟨x, hrun, hunneeded⟩ := reaping_unneeded (Files.start someFiles)
  refine (entriesHaveFifo_of_unlinksUnused someFiles _ (reaping_works open_y)
    (StepsMeet.concat ?_ hrun ?_)).1
  · apply stepsMeet_of_forall
    intro x e he
    simp only [reaping, List.mem_cons, List.not_mem_nil, or_false] at he
    rcases he with rfl | rfl | rfl | rfl | rfl | rfl | rfl | rfl | rfl | rfl <;> exact nofun
  · intro path d c node _ _ name hneeds
    exact absurd hneeds (hunneeded name)

/-- A channel is created again while its predecessor is torn down; or a channel is deleted whose name
leads to the node of another one. -/
theorem recreated_not_entriesHaveFifo :
    ¬ StatesHold (recorded step fileNote) EntriesHaveFifo (Manager.init, Files.start someFiles)
        (reaping ++ [.createCheck 0 "y" {}, .createFork 0 6, .createBuild 0 true, .childFifo 6 true,
          .createInsert 0, .workerUnlink]) ∧
      ¬ StatesHold (recorded step fileNote) EntriesHaveFifo (Manager.init, Files.start someFiles)
        (creation "y" 7 ++ creation "./y" 8 ++ closing "./y" 8 ++ [.workerUnlink]) := by
  constructor
  · intro h
    have hopen (files : Files) (hy : Open files "y") := (create_open hy).2.1 "y" hy
    have hlast := h.last rfl "y" 1 (by decide)
    exact not_hasFifo_unlink (hopen _ (hopen _ (hopen _ (hopen _ open_y)))) rfl hlast
  · intro h
    have hsame : (Files.start someFiles).place (fifoPath "./y").toList = some (1, ['y']) := by
      have hpath : components (fifoPath "./y").toList =
          [[], ['t', 'm', 'p'], ['.'], ['y']] := by rfl
      rw [place, lastComponent, hpath]
      simp [walk, Files.start, someFiles, FileTree.map, Entry.map]
    have halias : Open (Files.start someFiles) "./y" := ⟨1, ['y'], hsame, by decide, trivial⟩
    have hmade := (create_open open_y).2.1 "./y" halias
    refine not_hasFifo_unlink ((create_open hmade).2.1 "./y" hmade) ?_ (h.last rfl "y" 0 (by decide))
    rw [place_create hmade, place_create hmade, place_create open_y, place_create open_y, place_y,
      hsame]

end GMProxy.TdChannel
