import GMProxy.Channel.Frame
import GMProxy.Library.Machine

/-!
# Names in use

`createChannel` checks the name in one critical section and inserts in another. A name is in use when
the table has a channel under it or when a thread is between the two. As long as a name is in use
once, no insertion replaces a channel.
-/

namespace GMProxy.TdChannel

open Machine Custody

namespace Manager

/-- The name that a place has in use. -/
def reserved (s : Manager) : Place → Option String
  | .entry key => if ((s.chanMap.lookup key).getD none).isSome then some key else none
  | .thread t => (s.threads t).creates
  | .worker => none

variable {s s' : Manager} {e : Event} {t : Nat}

theorem reserved_entry (s : Manager) (key name : String) :
    s.reserved (.entry key) = some name ↔
      name = key ∧ ∃ p, s.chanMap.lookup key = some (some p) := by
  rw [reserved]
  rcases s.chanMap.lookup key with _ | _ | p
  · simp
  · simp
  · simp [eq_comm]

theorem reserved_setThread (s : Manager) (t : Nat) (pc : Pc) :
    (s.setThread t pc).reserved = Function.update s.reserved (.thread t) pc.creates := by
  funext a
  by_cases ha : a = .thread t
  · subst ha
    rw [Function.update_self]
    exact congrArg Pc.creates (Function.update_self ..)
  · rw [Function.update_of_ne ha]
    cases a with
    | entry key => rfl
    | thread u =>
        have hu : u ≠ t := fun hu => ha (by rw [hu])
        exact congrArg Pc.creates (Function.update_of_ne hu ..)
    | worker => rfl

/-- Nobody is between check and insertion for the name that is checked. -/
def Alone (s : Manager) : Event → Prop
  | .createCheck _ channel _ => ∀ u, (s.threads u).creates ≠ some channel
  | _ => True

private theorem reserved_le (hentries : ∀ key p, s'.chanMap.lookup key = some (some p) →
      s.chanMap.lookup key = some (some p))
    (hcreates : ∀ t, (s'.threads t).creates = (s.threads t).creates) (a : Place) (name : String)
    (h : s'.reserved a = some name) : s.reserved a = some name := by
  cases a with
  | entry key =>
      obtain ⟨rfl, p, hp⟩ := (reserved_entry s' key name).mp h
      exact (reserved_entry s name name).mpr ⟨rfl, p, hentries name p hp⟩
  | thread t => exact (hcreates t).symm.trans h
  | worker => cases h

private theorem reserved_touch (s : Manager) (name : String) : (s.touch name).reserved = s.reserved := by
  funext a
  cases a with
  | entry key =>
      have hentry : ((s.touch name).chanMap.lookup key).getD none = (s.chanMap.lookup key).getD none := by
        rw [touch, ChanMap.lookup_subscript]
        split
        case isTrue hk =>
          subst hk
          unfold ChanMap.subscript
          cases s.chanMap.lookup key with
          | some entry => rfl
          | none => rfl
        case isFalse => rfl
      rw [reserved, hentry]
      rfl
  | thread t => rfl
  | worker => rfl

private theorem reserved_insert (s : Manager) (channel : String) (p : Ptr) (live : Finset String) :
    reserved { s with chanMap := s.chanMap.insert channel (some p), live := live } =
      Function.update s.reserved (.entry channel) (some channel) := by
  funext a
  by_cases ha : a = .entry channel
  · subst ha
    rw [Function.update_self, reserved_entry]
    exact ⟨rfl, p, Finmap.lookup_insert s.chanMap⟩
  · rw [Function.update_of_ne ha]
    cases a with
    | entry key =>
        have hkey : key ≠ channel := fun hkey => ha (by rw [hkey])
        rw [reserved, reserved]
        simp only [Finmap.lookup_insert_of_ne s.chanMap hkey]
    | thread t => rfl
    | worker => rfl

private theorem createCheck_exclusive {channel : String} {param : ChanMediaParam}
    (hused : Exclusive s.reserved) (halone : ∀ u, (s.threads u).creates ≠ some channel)
    (h : s.createCheck t channel param = some s') : Exclusive s'.reserved := by
  obtain ⟨-, hidle, ⟨-, rfl⟩ | ⟨hnone, rfl⟩⟩ := createCheck_cases h
  · rw [reserved_touch]
    exact hused
  · rw [reserved_setThread, reserved_touch]
    apply hused.acquire
    intro a ha
    cases a with
    | entry key =>
        obtain ⟨rfl, p, hp⟩ := (reserved_entry s key channel).mp ha
        rw [ChanMap.subscript_eq_some.mpr hp] at hnone
        cases hnone
    | thread u => exact halone u ha
    | worker => cases ha

private theorem setThread_exclusive {pc : Pc} (hused : Exclusive s.reserved)
    (hpc : pc.creates = (s.threads t).creates) : Exclusive (s.setThread t pc).reserved := by
  have hsame : Function.update s.reserved (.thread t) pc.creates = s.reserved := by
    rw [hpc]
    exact Function.update_eq_self (Place.thread t) s.reserved
  rw [reserved_setThread, hsame]
  exact hused

private theorem createInsert_exclusive (hused : Exclusive s.reserved)
    (h : s.createInsert t = some s') : Exclusive s'.reserved := by
  obtain ⟨-, channel, p, hbuilt, rfl⟩ := createInsert_cases h
  have hname : s.reserved (.thread t) = some channel := congrArg Pc.creates hbuilt
  rw [reserved_setThread, reserved_insert, Function.update_comm (by simp)]
  exact hused.move hname (.entry channel)

/-- A step takes up a name that nobody uses, passes one to the table or takes one out of it. -/
theorem exclusive_step (hused : Exclusive s.reserved) (halone : s.Alone e)
    (h : step s e = some s') : Exclusive s'.reserved := by
  cases e with
  | createCheck t channel param => exact createCheck_exclusive hused halone h
  | createFork t fpid =>
      obtain ⟨channel, param, hchecked, ⟨-, rfl⟩ | ⟨-, -, rfl⟩⟩ := createFork_cases h
      all_goals
        refine setThread_exclusive hused ?_
        exact (congrArg Pc.creates hchecked).symm
  | createBuild t made =>
      obtain ⟨channel, param, fpid, hforked, rfl⟩ := createBuild_cases h
      refine setThread_exclusive hused ?_
      exact (congrArg Pc.creates hforked).symm
  | createInsert t => exact createInsert_exclusive hused h
  | _ =>
      apply hused.mono
      apply reserved_le
      · intro key p hp
        exact (entry_step h hp).resolve_right (by simp)
      · intro t
        exact ((step_frame h).creates rfl t).1

/-- The pid that the table records under a name. -/
def recordedPid (s : Manager) (key : String) : Option Int :=
  match s.chanMap.lookup key with
  | some (some p) => (s.heap p).map Channel.pid
  | _ => none

/-- An insertion finds no channel under its name, and a recorded pid stays recorded until the worker
takes the channel. -/
structure KeepsChannels (s : Manager) (e : Event) : Prop where
  insert : ∀ t channel p, e = .createInsert t → s.threads t = .createBuilt channel p →
    ∀ q, s.chanMap.lookup channel ≠ some (some q)
  recorded : ∀ s' key pid, step s e = some s' → s.recordedPid key = some pid →
    s'.recordedPid key = some pid ∨ (e = .workerTake ∧ s.worker = .popped key)

theorem recordedPid_eq_some {key : String} {pid : Int} : s.recordedPid key = some pid ↔
    ∃ p, s.chanMap.lookup key = some (some p) ∧ (s.heap p).map Channel.pid = some pid := by
  rw [recordedPid]
  rcases s.chanMap.lookup key with _ | _ | p
  · simp
  · simp
  · simp

private theorem record_kept (hrec : s.ledger.RecordsOk) (h : step s e = some s') {key : String}
    {p : Ptr} (hp : s.chanMap.lookup key = some (some p)) :
    (s'.heap p).map Channel.pid = (s.heap p).map Channel.pid := by
  rcases record_step h (hrec.lt_next (entry_allocated hrec hp)) with hkept | ⟨-, hworker, -⟩
  · exact hkept
  · have hboth := hrec.exclusive _ .worker p (congrArg Holding.ptr (holding_entry hp))
      (congrArg Holding.ptr hworker)
    cases hboth

theorem keepsChannels (hused : Exclusive s.reserved) (hrec : s.ledger.RecordsOk) :
    s.KeepsChannels e := by
  have hinsert : ∀ t channel p, e = .createInsert t → s.threads t = .createBuilt channel p →
      ∀ q, s.chanMap.lookup channel ≠ some (some q) := by
    intro t channel p _ hbuilt q hq
    have hentry := (reserved_entry s channel channel).mpr ⟨rfl, q, hq⟩
    have hthread : s.reserved (.thread t) = some channel := congrArg Pc.creates hbuilt
    exact absurd (hused _ _ channel hentry hthread) (by simp)
  refine ⟨hinsert, fun s' key pid h hpid => ?_⟩
  obtain ⟨p, hp, hrecord⟩ := recordedPid_eq_some.mp hpid
  have hkept := record_kept hrec h hp
  rw [hrecord] at hkept
  rcases entry_kept h hp with hsame | ⟨rfl, hpopped, -⟩ | ⟨t, q, rfl, hbuilt⟩
  · exact Or.inl (recordedPid_eq_some.mpr ⟨p, hsame, hkept⟩)
  · exact Or.inr ⟨rfl, hpopped⟩
  · exact absurd hp (hinsert t key q rfl hbuilt p)

end Manager

theorem init_exclusive : Exclusive Manager.init.reserved := by
  intro a b name ha
  cases a with
  | entry key =>
      obtain ⟨-, p, hp⟩ := (Manager.reserved_entry _ key name).mp ha
      cases hp
  | thread t => cases ha
  | worker => cases ha

private theorem alone_invariant (s : Manager) (e : Event) (s' : Manager)
    (hs : Exclusive s.reserved ∧ s.ledger.RecordsOk) (halone : s.Alone e) (h : step s e = some s') :
    Exclusive s'.reserved ∧ s'.ledger.RecordsOk :=
  ⟨Manager.exclusive_step hs.1 halone h, recordsOk_step hs.2 h⟩

private theorem exists_run_to_built {s : Manager} {u : Nat} {channel : String}
    (hcreates : (s.threads u).creates = some channel) :
    ∃ es s' p, Machine.run step s es = some s' ∧ s'.threads u = .createBuilt channel p ∧
      s'.chanMap = s.chanMap ∧ s'.chanMapLocked = s.chanMapLocked ∧
      ∀ t, t ≠ u → s'.threads t = s.threads t := by
  have hbuild (s : Manager) {param : ChanMediaParam} {fpid : Int}
      (hforked : s.threads u = .createForked channel param fpid) :
      ∃ s' p, step s (.createBuild u true) = some s' ∧ s'.threads u = .createBuilt channel p ∧
        s'.chanMap = s.chanMap ∧ s'.chanMapLocked = s.chanMapLocked ∧
        ∀ t, t ≠ u → s'.threads t = s.threads t := by
    obtain ⟨s', hstep⟩ : ∃ s', s.createBuild u = some s' := by
      rw [Manager.createBuild, hforked]
      exact ⟨_, rfl⟩
    obtain ⟨channel', param', fpid', hforked', rfl⟩ := Manager.createBuild_cases hstep
    rw [hforked] at hforked'
    cases hforked'
    exact ⟨_, s.nextPtr, hstep, Manager.setThread_self, rfl, rfl, fun t ht => Function.update_of_ne ht ..⟩
  cases hpc : s.threads u with
  | createChecked channel' param =>
      rw [hpc] at hcreates
      obtain rfl := Option.some.inj hcreates
      have hfork : step s (.createFork u (-1)) = some (s.setThread u (.createForked channel' param (-1))) := by
        simp only [step, Manager.createFork, hpc, if_true]
      obtain ⟨s', p, hstep, hbuilt, hmap, hlocked, hothers⟩ := hbuild _ (Manager.setThread_self (s := s))
      refine ⟨[.createFork u (-1), .createBuild u true], s', p, ?_, hbuilt, hmap, hlocked, ?_⟩
      · rw [Machine.run_cons hfork, Machine.run_cons hstep]
        rfl
      · intro t ht
        rw [hothers t ht]
        exact Function.update_of_ne ht ..
  | createForked channel' param fpid =>
      rw [hpc] at hcreates
      obtain rfl := Option.some.inj hcreates
      obtain ⟨s', p, hstep, hrest⟩ := hbuild s hpc
      refine ⟨[.createBuild u true], s', p, ?_, hrest⟩
      rw [Machine.run_cons hstep]
      rfl
  | createBuilt channel' p =>
      rw [hpc] at hcreates
      obtain rfl := Option.some.inj hcreates
      exact ⟨[], s, p, rfl, hpc, rfl, rfl, fun _ _ => rfl⟩
  | _ =>
      rw [hpc] at hcreates
      cases hcreates

private theorem createInsert_of_built {s : Manager} {u : Nat} {channel : String} {p : Ptr}
    (hfree : s.chanMapLocked = false) (hbuilt : s.threads u = .createBuilt channel p) :
    ∃ s', step s (.createInsert u) = some s' ∧ s'.chanMap.lookup channel = some (some p) ∧
      s'.chanMapLocked = false ∧ ∀ t, t ≠ u → s'.threads t = s.threads t := by
  obtain ⟨s', hstep⟩ : ∃ s', s.createInsert u = some s' := by
    rw [Manager.createInsert, hfree, hbuilt]
    exact ⟨_, rfl⟩
  obtain ⟨-, channel', p', hbuilt', rfl⟩ := Manager.createInsert_cases hstep
  rw [hbuilt] at hbuilt'
  cases hbuilt'
  exact ⟨_, hstep, Finmap.lookup_insert s.chanMap, hfree, fun t ht => Function.update_of_ne ht ..⟩

private theorem overlap_overwrites {events : List Event} {s s' : Manager} {e : Event}
    (hs : Exclusive s.reserved) (hrun : Machine.run step Manager.init events = some s)
    (h : step s e = some s') (hover : ¬ s.Alone e) :
    ∃ more, ¬ StepsMeet step Manager.KeepsChannels Manager.init (events ++ e :: more) := by
  cases e with
  | createCheck t channel param =>
      obtain ⟨u, hu⟩ := not_forall.mp hover
      have hcreates := not_not.mp hu
      obtain ⟨hfree, hidle, ⟨⟨q, hq⟩, -⟩ | ⟨-, rfl⟩⟩ := Manager.createCheck_cases h
      · have hentry := (Manager.reserved_entry s channel channel).mpr ⟨rfl, q, hq⟩
        exact absurd (hs _ (.thread u) channel hentry hcreates) (by simp)
      · have hut : u ≠ t := by
          rintro rfl
          rw [hidle] at hcreates
          cases hcreates
        have hcreates' : (((s.touch channel).setThread t (.createChecked channel param)).threads u).creates =
            some channel := by
          rw [← hcreates]
          exact congrArg Pc.creates (Function.update_of_ne hut ..)
        obtain ⟨es₁, s₁, p, hrun₁, hbuilt₁, -, hlocked₁, hothers₁⟩ := exists_run_to_built hcreates'
        obtain ⟨s₂, hinsert, hfound, hfree₂, hothers₂⟩ :=
          createInsert_of_built (hlocked₁.trans hfree) hbuilt₁
        have hchecked : s₂.threads t = .createChecked channel param := by
          rw [hothers₂ t hut.symm, hothers₁ t hut.symm]
          exact Manager.setThread_self
        obtain ⟨es₃, s₃, q, hrun₃, hbuilt₃, hmap₃, hlocked₃, -⟩ :=
          exists_run_to_built (s := s₂) (u := t) (by rw [hchecked]; rfl)
        obtain ⟨s₄, hinsert₄, -⟩ := createInsert_of_built (hlocked₃.trans hfree₂) hbuilt₃
        refine ⟨es₁ ++ .createInsert u :: es₃ ++ [.createInsert t], fun hkeeps => ?_⟩
        have hwhole : Machine.run step Manager.init
            (events ++ .createCheck t channel param :: (es₁ ++ .createInsert u :: es₃)) = some s₃ := by
          rw [Machine.run_append, hrun, Option.bind_some, Machine.run_cons h, Machine.run_append,
            hrun₁, Option.bind_some, Machine.run_cons hinsert, hrun₃]
        rw [← List.cons_append, ← List.append_assoc] at hkeeps
        exact (hkeeps.last hwhole hinsert₄).insert t channel q rfl hbuilt₃ p (by rw [hmap₃, hfound])
  | _ => exact absurd trivial hover

/-- In a run in which no name is checked while another call is between check and insertion for it,
channels are kept. The first overlapping check can be continued to an insertion over a channel. -/
theorem keepsChannels_of_alone (events : List Event)
    (halone : StepsMeet step Manager.Alone Manager.init events) :
    StepsMeet step Manager.KeepsChannels Manager.init events ∧
      ∀ s e s', Machine.run step Manager.init events = some s → step s e = some s' → ¬ s.Alone e →
        ∃ more, ¬ StepsMeet step Manager.KeepsChannels Manager.init (events ++ e :: more) := by
  have hstart : Exclusive Manager.init.reserved ∧ Manager.init.ledger.RecordsOk :=
    ⟨init_exclusive, init_recordsOk⟩
  constructor
  · exact halone.imp alone_invariant (fun s e s' hs _ _ => Manager.keepsChannels hs.1 hs.2) hstart
  · intro s e s' hrun h hover
    have hs := (halone.statesHold alone_invariant hstart).last hrun
    exact overlap_overwrites hs.1 hrun h hover

private theorem create_alone {s : Manager} {t : Nat} {channel : String} {fpid : Int}
    (hnone : ∀ u, (s.threads u).creates = none) :
    StepsMeet step Manager.Alone s (createEvents t channel {} fpid true) := by
  refine fun s' _ => ⟨fun u hcreates => ?_, ?_⟩
  · rw [hnone u] at hcreates
    cases hcreates
  · apply Machine.stepsMeet_of_forall
    intro s e he
    simp only [List.mem_cons, List.not_mem_nil, or_false] at he
    rcases he with rfl | rfl | rfl <;> trivial

/-- A channel that is created, taken out of the table, and created again by another thread. -/
private def recreation : List Event :=
  creation "x" 5 ++ [.delChannel "x", .workerPop, .workerTake] ++ createEvents 1 "x" {} 6 true

private theorem taken_runs : ∃ s,
    Machine.run step Manager.init (creation "x" 5 ++ [.delChannel "x", .workerPop, .workerTake]) =
      some s ∧ ∀ u, (s.threads u).creates = none := by
  refine ⟨_, rfl, fun u => ?_⟩
  rcases u with _ | u <;> rfl

private theorem recreation_runs : ∃ s, Machine.run step Manager.init recreation = some s ∧
    ∀ u, (s.threads u).creates = none := by
  refine ⟨_, rfl, fun u => ?_⟩
  rcases u with _ | _ | u <;> rfl

/-- The first thread checks the name again when the second has created the channel. -/
theorem recreation_keepsChannels :
    StepsMeet step Manager.KeepsChannels Manager.init (recreation ++ [.createCheck 0 "x" {}]) := by
  obtain ⟨s, hrun, hnone⟩ := taken_runs
  obtain ⟨s', hrun', hnone'⟩ := recreation_runs
  refine (keepsChannels_of_alone _ (StepsMeet.concat (StepsMeet.append ?_ hrun
    (create_alone hnone)) hrun' ?_)).1
  · refine StepsMeet.append (create_alone fun _ => rfl) rfl ?_
    apply Machine.stepsMeet_of_forall
    intro s e he
    simp only [List.mem_cons, List.not_mem_nil, or_false] at he
    rcases he with rfl | rfl | rfl <;> trivial
  · intro u hcreates
    rw [hnone' u] at hcreates
    cases hcreates

/-- Two calls for one name that both pass the check before either inserts. -/
theorem overlap_not_keepsChannels :
    ¬ StepsMeet step Manager.KeepsChannels Manager.init ([.createCheck 0 "x" {},
      .createCheck 1 "x" {}, .createFork 0 5, .createBuild 0 true, .createInsert 0,
      .createFork 1 6, .createBuild 1 true] ++ [.createInsert 1]) := by
  intro h
  exact (h.last rfl rfl).insert 1 "x" 1 rfl rfl 0 (by decide)

end GMProxy.TdChannel
