import GMProxy.Channel.Frame
import GMProxy.Library.Locks
import GMProxy.Library.Machine

/-!
# The mutexes of the manager

The critical sections of `TdChanManager` taken apart: the call that locks the mutex, the body, and the
call that unlocks it are steps of their own. The machine in which a section is one step simulates it.
-/

namespace GMProxy.TdChannel

open Machine

inductive Mutex where
  | chanMapMutex
  | delChanMutex
deriving DecidableEq

inductive Agent where
  | thread (t : Nat)
  | worker
  | child (pid : Int)
deriving DecidableEq

/-- The critical sections of the source; those of the operations come with the thread. -/
inductive Section where
  | createCheck (t : Nat) (channel : String) (param : ChanMediaParam)
  | createInsert (t : Nat)
  | delChannel (t : Nat) (channle : String)
  | presetLookup (t : Nat) (chan : String) (param : ChanMediaParam)
  | channelsInfo2Json (t : Nat)
  | workerPop
  | workerTake
deriving DecidableEq

namespace Section

def agent : Section → Agent
  | createCheck t _ _ | createInsert t | delChannel t _ | presetLookup t _ _
  | channelsInfo2Json t => .thread t
  | workerPop | workerTake => .worker

def mutex : Section → Mutex
  | createCheck .. | createInsert _ | presetLookup .. | channelsInfo2Json _ | workerTake =>
      .chanMapMutex
  | delChannel .. | workerPop => .delChanMutex

variable (s : Manager)

/-- The agent has come to the call that locks the mutex. -/
def ready : Section → Bool
  | createCheck t _ _ | delChannel t _ | channelsInfo2Json t => s.threads t = .idle
  | createInsert t => match s.threads t with
      | .createBuilt _ _ => true
      | _ => false
  | presetLookup t chan _ => s.threads t = .idle ∧ chan ≠ ""
  | workerPop => s.worker = .idle
  | workerTake => match s.worker with
      | .popped _ => true
      | _ => false

/-- What lies between the calls. `channelsInfo2Json` only reads; it has no state after a null entry. -/
def body : Section → Option Manager
  | createCheck t channel param => s.createCheck t channel param
  | createInsert t => s.createInsert t
  | delChannel _ channle => s.delChannel channle
  | presetLookup t chan param => s.presetLookup t chan param
  | channelsInfo2Json _ => if s.channelsInfo2Json.isSome then some s else none
  | workerPop => s.workerPop
  | workerTake => s.workerTake

/-- The body comes to a call that unlocks the mutex; `mediaPreset` returns before it where it finds
no channel. -/
def unlocks : Section → Bool
  | presetLookup _ chan _ => (s.chanMap.subscript chan).1.isSome
  | _ => true

end Section

/-- The agent of a step that lies outside the sections. -/
def Event.agent : Event → Option Agent
  | .createFork t _ | .createBuild t _ | .codecLookup t _ _ _ _ | .codecWrite t | .codecUpdate t
  | .presetWrite t | .presetUpdate t => some (.thread t)
  | .presetLookup t chan _ => if chan = "" then some (.thread t) else none
  | .childFifo pid _ => some (.child pid)
  | .workerKill | .workerWait _ | .workerUnlink | .workerDelete => some .worker
  | .createCheck .. | .createInsert _ | .delChannel _ | .workerPop | .workerTake => none

/-- Outside the sections, inside one and before its body, or inside one and before the call that
unlocks its mutex. -/
inductive Position where
  | outside
  | entered (sec : Section)
  | leaving (m : Mutex)
deriving DecidableEq

def Position.mutex : Position → Option Mutex
  | outside => none
  | entered sec => some sec.mutex
  | leaving m => some m

/-- The manager, the owners of its mutexes and the places of the agents. -/
structure Shared where
  manager : Manager
  owner : Mutex → Option Agent
  place : Agent → Position

inductive SharedEvent where
  | lock (sec : Section)
  | body (a : Agent)
  | unlock (a : Agent)
  | other (e : Event)

namespace Shared

def init : Shared := ⟨Manager.init, fun _ => none, fun _ => .outside⟩

variable (s : Shared)

def setPlace (a : Agent) (place : Position) : Shared :=
  { s with place := Function.update s.place a place }

/-- `pthread_mutex_lock`. -/
def lock (sec : Section) : Option Shared :=
  if s.place sec.agent = .outside ∧ sec.ready s.manager ∧ s.owner sec.mutex = none then
    some ({ s with owner := Function.update s.owner sec.mutex (some sec.agent) }.setPlace
      sec.agent (.entered sec))
  else none

def body (a : Agent) : Option Shared :=
  match s.place a with
  | .entered sec => (sec.body s.manager).map fun manager =>
      { s with manager := manager }.setPlace a
        (if sec.unlocks s.manager then .leaving sec.mutex else .outside)
  | _ => none

/-- `pthread_mutex_unlock`. -/
def unlock (a : Agent) : Option Shared :=
  match s.place a with
  | .leaving m => some ({ s with owner := Function.update s.owner m none }.setPlace a .outside)
  | _ => none

/-- A step outside the sections. -/
def other (e : Event) : Option Shared :=
  match e.agent with
  | some a =>
      if s.place a = .outside then (TdChannel.step s.manager e).map fun manager =>
        { s with manager := manager }
      else none
  | none => none

def step : SharedEvent → Option Shared
  | .lock sec => s.lock sec
  | .body a => s.body a
  | .unlock a => s.unlock a
  | .other e => s.other e

/-- The locks with the places of the agents: an operation that has returned is outside. -/
def locks : Locks Agent Mutex := ⟨s.owner, fun a => (s.place a).mutex⟩

variable {s} {s' : Shared} {a : Agent} {sec : Section} {e : Event}

theorem place_setPlace (s : Shared) (a : Agent) (place : Position) :
    (s.setPlace a place).place = Function.update s.place a place := rfl

theorem inside_locks (s : Shared) (a : Agent) : s.locks.inside a = (s.place a).mutex := rfl

theorem locks_setPlace (s : Shared) (a : Agent) (place : Position) :
    (s.setPlace a place).locks = ⟨s.owner, Function.update s.locks.inside a place.mutex⟩ :=
  congrArg (Locks.mk s.owner) (Function.comp_update Position.mutex s.place a place)

theorem lock_cases (h : s.lock sec = some s') :
    s.place sec.agent = .outside ∧ sec.ready s.manager = true ∧ s.owner sec.mutex = none ∧
      s' = { s with owner := Function.update s.owner sec.mutex (some sec.agent) }.setPlace sec.agent
        (.entered sec) := by
  unfold lock at h
  by_cases hfree : s.place sec.agent = .outside ∧ sec.ready s.manager ∧ s.owner sec.mutex = none
  · rw [if_pos hfree] at h
    exact ⟨hfree.1, hfree.2.1, hfree.2.2, (Option.some.inj h).symm⟩
  · rw [if_neg hfree] at h
    cases h

theorem body_cases (h : s.body a = some s') :
    ∃ sec manager, s.place a = .entered sec ∧ sec.body s.manager = some manager ∧
      s' = { s with manager := manager }.setPlace a
        (if sec.unlocks s.manager then .leaving sec.mutex else .outside) := by
  unfold body at h
  cases hplace : s.place a with
  | entered sec =>
      simp only [hplace] at h
      obtain ⟨manager, hbody, rfl⟩ := Option.map_eq_some_iff.mp h
      exact ⟨sec, manager, rfl, hbody, rfl⟩
  | _ => simp [hplace] at h

theorem unlock_cases (h : s.unlock a = some s') :
    ∃ m, s.place a = .leaving m ∧
      s' = { s with owner := Function.update s.owner m none }.setPlace a .outside := by
  unfold unlock at h
  cases hplace : s.place a with
  | leaving m =>
      simp only [hplace, Option.some.injEq] at h
      exact ⟨m, rfl, h.symm⟩
  | _ => simp [hplace] at h

theorem other_cases (h : s.other e = some s') :
    ∃ manager, TdChannel.step s.manager e = some manager ∧ s' = { s with manager := manager } := by
  unfold other at h
  cases hagent : e.agent with
  | none => simp [hagent] at h
  | some a =>
      simp only [hagent] at h
      by_cases houtside : s.place a = .outside
      · rw [if_pos houtside] at h
        obtain ⟨manager, hstep, rfl⟩ := Option.map_eq_some_iff.mp h
        exact ⟨manager, hstep, rfl⟩
      · rw [if_neg houtside] at h
        cases h

theorem locks_lock (h : s.lock sec = some s') :
    s.locks.inside sec.agent = none ∧ s.locks.owner sec.mutex = none ∧
      s'.locks = s.locks.lock sec.agent sec.mutex := by
  obtain ⟨houtside, _, hfree, rfl⟩ := lock_cases h
  refine ⟨?_, hfree, locks_setPlace ..⟩
  rw [inside_locks, houtside, Position.mutex]

theorem locks_body (h : s.body a = some s') :
    ∃ sec, s.place a = .entered sec ∧ s.locks.inside a = some sec.mutex ∧
      s'.locks = if sec.unlocks s.manager then s.locks else s.locks.desert a := by
  obtain ⟨sec, manager, hplace, _, rfl⟩ := body_cases h
  have hinside : s.locks.inside a = some sec.mutex := by
    rw [inside_locks, hplace, Position.mutex]
  refine ⟨sec, hplace, hinside, ?_⟩
  rw [locks_setPlace]
  by_cases hunlocks : sec.unlocks s.manager = true
  · rw [if_pos hunlocks, if_pos hunlocks, Position.mutex, ← hinside]
    exact congrArg (Locks.mk s.owner) (Function.update_eq_self a s.locks.inside)
  · rw [if_neg hunlocks, if_neg hunlocks]
    rfl

theorem locks_unlock (h : s.unlock a = some s') :
    ∃ m, s.locks.inside a = some m ∧ s'.locks = s.locks.unlock a m := by
  obtain ⟨m, hplace, rfl⟩ := unlock_cases h
  refine ⟨m, ?_, locks_setPlace ..⟩
  rw [inside_locks, hplace, Position.mutex]

theorem locks_other (h : s.other e = some s') : s'.locks = s.locks := by
  obtain ⟨manager, _, rfl⟩ := other_cases h
  rfl

/-- Whoever is inside a section owns its mutex. -/
theorem guarded_step {e : SharedEvent} (hguarded : s.locks.Guarded) (h : s.step e = some s') :
    s'.locks.Guarded := by
  cases e with
  | lock sec =>
      obtain ⟨houtside, hfree, hlocks⟩ := locks_lock h
      rw [hlocks]
      exact hguarded.lock houtside hfree
  | body a =>
      obtain ⟨sec, _, _, hlocks⟩ := locks_body h
      rw [hlocks]
      split
      · exact hguarded
      · exact hguarded.desert
  | unlock a =>
      obtain ⟨m, hinside, hlocks⟩ := locks_unlock h
      rw [hlocks]
      exact hguarded.unlock hinside
  | other e =>
      rw [locks_other h]
      exact hguarded

theorem init_guarded : init.locks.Guarded := by
  intro a m h
  cases h

/-- The step is the body of a section of the mutex that returns without unlocking it. -/
def Keeps (s : Shared) (e : SharedEvent) (m : Mutex) : Prop :=
  ∃ a sec, e = .body a ∧ s.place a = .entered sec ∧ sec.unlocks s.manager = false ∧ m = sec.mutex

theorem stuck_step {e : SharedEvent} {m : Mutex} (hguarded : s.locks.Guarded)
    (h : s.step e = some s') : s'.locks.Stuck m ↔ s.locks.Stuck m ∨ Keeps s e m := by
  cases e with
  | lock sec =>
      obtain ⟨houtside, hfree, hlocks⟩ := locks_lock h
      rw [hlocks, Locks.stuck_lock houtside hfree]
      simp [Keeps]
  | body a =>
      obtain ⟨sec, hplace, hinside, hlocks⟩ := locks_body h
      rw [hlocks]
      by_cases hunlocks : sec.unlocks s.manager = true
      · simp [Keeps, hplace, hunlocks]
      · rw [if_neg hunlocks, Locks.stuck_desert hguarded hinside]
        simp [Keeps, hplace, hunlocks]
  | unlock a =>
      obtain ⟨n, hinside, hlocks⟩ := locks_unlock h
      rw [hlocks, Locks.stuck_unlock hguarded hinside]
      simp [Keeps]
  | other e =>
      rw [locks_other h]
      simp [Keeps]

/-- Every `mediaPreset` that looks a name up finds its channel. -/
def PresetFinds (s : Shared) (e : SharedEvent) : Prop :=
  ∀ a t chan param, e = .body a → s.place a = .entered (.presetLookup t chan param) →
    ∃ p, s.manager.chanMap.lookup chan = some (some p)

theorem presetFinds_iff {e : SharedEvent} : PresetFinds s e ↔
    ∀ a sec, e = .body a → s.place a = .entered sec → sec.unlocks s.manager = true := by
  constructor
  · intro h a sec he hplace
    cases sec with
    | presetLookup t chan param =>
        obtain ⟨p, hp⟩ := h a t chan param he hplace
        rw [Section.unlocks, ChanMap.subscript_eq_some.mpr hp, Option.isSome_some]
    | _ => rfl
  · intro h a t chan param he hplace
    have hfound := h a _ he hplace
    rw [Section.unlocks, Option.isSome_iff_exists] at hfound
    obtain ⟨p, hp⟩ := hfound
    exact ⟨p, ChanMap.subscript_eq_some.mp hp⟩

theorem balanced_step {e : SharedEvent} (hguarded : s.locks.Guarded) (hbalanced : s.locks.Balanced)
    (h : s.step e = some s') : s'.locks.Balanced ↔ PresetFinds s e := by
  rw [Locks.balanced_iff] at hbalanced
  rw [Locks.balanced_iff, presetFinds_iff]
  constructor
  · intro hfree a sec he hplace
    cases hunlocks : sec.unlocks s.manager with
    | true => rfl
    | false =>
        have hstuck := (stuck_step hguarded h).mpr (Or.inr ⟨a, sec, he, hplace, hunlocks, rfl⟩)
        exact absurd hstuck (hfree sec.mutex)
  · intro hfinds m hstuck
    rcases (stuck_step hguarded h).mp hstuck with hstuck | ⟨a, sec, he, hplace, hunlocks, _⟩
    · exact hbalanced m hstuck
    · rw [hfinds a sec he hplace] at hunlocks
      cases hunlocks

/-- Whatever happens, nobody locks the mutex any more. -/
def BlocksForEver (s : Shared) (m : Mutex) : Prop :=
  ∀ es s' sec, run step s es = some s' → sec.mutex = m → s'.step (.lock sec) = none

/-- A mutex that an operation has kept blocks for ever. -/
theorem blocksForEver_of_stuck {m : Mutex} (hguarded : s.locks.Guarded) (hstuck : s.locks.Stuck m) :
    BlocksForEver s m := by
  have hinv : ∀ s e s', s.locks.Guarded ∧ s.locks.Stuck m → step s e = some s' →
      s'.locks.Guarded ∧ s'.locks.Stuck m := by
    intro s e s' ⟨hguarded, hstuck⟩ h
    exact ⟨guarded_step hguarded h, (stuck_step hguarded h).mpr (Or.inl hstuck)⟩
  intro es s' sec hrun hsec
  obtain ⟨_, a, howner, _⟩ := (statesHold_of_invariant hinv ⟨hguarded, hstuck⟩).last hrun
  cases hlock : s'.step (.lock sec) with
  | none => rfl
  | some r =>
      obtain ⟨_, hfree, _⟩ := locks_lock hlock
      rw [hsec, howner] at hfree
      cases hfree

/-- Both mutexes are unlocked but for the operations inside their sections, and none blocks for ever
that an operation holds which has returned. -/
structure Released (s : Shared) : Prop where
  unlocked : s.locks.Balanced
  unblocked : ∀ m, s.locks.Stuck m → ¬ BlocksForEver s m

theorem released_iff : Released s ↔ s.locks.Balanced := by
  constructor
  · intro h
    exact h.unlocked
  · intro h
    refine ⟨h, fun m hstuck => ?_⟩
    exact absurd hstuck (Locks.balanced_iff.mp h m)

/-- The operations and the worker leave both mutexes unlocked, unless `mediaPreset` is asked for a
channel that is not mapped. -/
theorem locks_released_iff (es : List SharedEvent) :
    StatesHold step Released init es ↔ StepsMeet step PresetFinds init es := by
  have hstep : ∀ s e s', s.locks.Guarded → Released s → step s e = some s' →
      (Released s' ↔ PresetFinds s e) := by
    intro s e s' hguarded hreleased h
    rw [released_iff]
    exact balanced_step hguarded hreleased.unlocked h
  have hinit : Released init := by
    rw [released_iff]
    intro m a h
    cases h
  exact statesHold_iff_steps_of_invariant (fun _ _ _ => guarded_step) hstep init_guarded hinit

/-- A `mediaPreset` of a channel that was never created. -/
theorem unknownPreset_not_released :
    ¬ StatesHold step Released init
      [.lock (.presetLookup 0 "x" {}), .body (.thread 0)] := by
  intro h
  have hlocked := h.2 _ rfl
  have hreturned := (hlocked.2 _ rfl).head
  have hinside := hreturned.unlocked .chanMapMutex (.thread 0) rfl
  cases hinside

/-- A body is the step of its section in the coarser machine, or only reads. -/
theorem body_refines {m m' : Manager} (h : sec.body m = some m') :
    m' = m ∨ ∃ e, TdChannel.step m e = some m' := by
  cases sec with
  | createCheck t channel param => exact Or.inr ⟨.createCheck t channel param, h⟩
  | createInsert t => exact Or.inr ⟨.createInsert t, h⟩
  | delChannel t channle => exact Or.inr ⟨.delChannel channle, h⟩
  | presetLookup t chan param => exact Or.inr ⟨.presetLookup t chan param, h⟩
  | channelsInfo2Json t =>
      rw [Section.body] at h
      split at h
      · exact Or.inl (Option.some.inj h).symm
      · cases h
  | workerPop => exact Or.inr ⟨.workerPop, h⟩
  | workerTake => exact Or.inr ⟨.workerTake, h⟩

theorem step_refines {e : SharedEvent} (h : s.step e = some s') :
    s'.manager = s.manager ∨ ∃ e, TdChannel.step s.manager e = some s'.manager := by
  cases e with
  | lock sec =>
      obtain ⟨_, _, _, rfl⟩ := lock_cases h
      exact Or.inl rfl
  | body a =>
      obtain ⟨sec, manager, _, hbody, rfl⟩ := body_cases h
      exact body_refines hbody
  | unlock a =>
      obtain ⟨m, _, rfl⟩ := unlock_cases h
      exact Or.inl rfl
  | other e =>
      obtain ⟨manager, hstep, rfl⟩ := other_cases h
      exact Or.inr ⟨e, hstep⟩

/-- What the sections do step by step, the coarser machine does in whole sections. -/
theorem exists_run_manager {es : List SharedEvent} (hrun : run step init es = some s) :
    ∃ events, Machine.run TdChannel.step Manager.init events = some s.manager := by
  have hstep : ∀ (s : Shared) (m : Manager) e s', s.manager = m → step s e = some s' →
      ∃ events m', Machine.run TdChannel.step m events = some m' ∧ s'.manager = m' := by
    rintro s _ e s' rfl h
    rcases step_refines h with hkept | ⟨e, he⟩
    · exact ⟨[], s.manager, rfl, hkept⟩
    · exact ⟨[e], s'.manager, by rw [run_cons he, run], rfl⟩
  obtain ⟨events, m, hevents, rfl⟩ := exists_run_of_simulates hstep rfl hrun
  exact ⟨events, hevents⟩

end Shared

/-- The flags that stand for the mutexes in the coarser machine. -/
def Manager.flags (s : Manager) : Bool × Bool := (s.chanMapLocked, s.delChanLocked)

theorem Manager.flags_kept {s s' : Manager} {e : Event}
    (he : ∀ t chan param, e ≠ .presetLookup t chan param)
    (h : TdChannel.step s e = some s') : s'.flags = s.flags := by
  by_cases hheap : e.movesHeap = false
  · exact congrArg₂ Prod.mk (heap_frame hheap h).2.1 (heap_frame hheap h).2.2
  · cases e with
    | createBuild t made =>
        obtain ⟨_, _, _, _, rfl⟩ := Manager.createBuild_cases h
        rfl
    | workerDelete =>
        obtain ⟨_, _, _, rfl⟩ := Manager.workerDelete_cases h
        rfl
    | codecUpdate t =>
        obtain ⟨p, para, _, rfl⟩ := Manager.codecUpdate_cases h
        obtain ⟨heap, hupdate⟩ := Manager.updateParam_eq s p _
        rw [hupdate]
        rfl
    | presetLookup t chan param => exact absurd rfl (he t chan param)
    | presetUpdate t =>
        obtain ⟨p, param, _, rfl⟩ := Manager.presetUpdate_cases h
        obtain ⟨heap, hupdate⟩ := Manager.updateParam_eq s p _
        rw [hupdate]
        rfl
    | _ => exact absurd rfl hheap

namespace Shared

variable {s s' : Shared} {sec : Section}

theorem flags_body {m m' : Manager} (hnamed : ∀ t param, sec ≠ .presetLookup t "" param)
    (h : sec.body m = some m') :
    m'.flags = (m.chanMapLocked || !sec.unlocks m, m.delChanLocked) := by
  have hkept : m'.flags = m.flags → sec.unlocks m = true →
      m'.flags = (m.chanMapLocked || !sec.unlocks m, m.delChanLocked) := by
    intro hflags hunlocks
    rw [hflags, hunlocks, Bool.not_true, Bool.or_false, Manager.flags]
  cases sec with
  | createCheck t channel param =>
      apply hkept (Manager.flags_kept (e := .createCheck t channel param) (by simp) h) rfl
  | createInsert t => exact hkept (Manager.flags_kept (e := .createInsert t) (by simp) h) rfl
  | delChannel t channle =>
      exact hkept (Manager.flags_kept (e := .delChannel channle) (by simp) h) rfl
  | presetLookup t chan param =>
      rcases (Manager.presetLookup_cases h).2 with ⟨rfl, _⟩ | ⟨_, hfree, ⟨p, hp, rfl⟩ | ⟨hnone, rfl⟩⟩
      · exact absurd rfl (hnamed t param)
      · apply hkept rfl
        rw [Section.unlocks, ChanMap.subscript_eq_some.mpr hp, Option.isSome_some]
      · rw [Section.unlocks, hnone, Option.isSome_none, Bool.not_false, Bool.or_true]
        rfl
  | channelsInfo2Json t =>
      rw [Section.body] at h
      split at h
      · obtain rfl := Option.some.inj h
        exact hkept rfl rfl
      · cases h
  | workerPop => exact hkept (Manager.flags_kept (e := .workerPop) (by simp) h) rfl
  | workerTake => exact hkept (Manager.flags_kept (e := .workerTake) (by simp) h) rfl

theorem flags_other {e : Event} (h : s.other e = some s') : s'.manager.flags = s.manager.flags := by
  obtain ⟨manager, hstep, hs'⟩ := other_cases h
  have hflags : manager.flags = s.manager.flags := by
    cases e with
    | presetLookup t chan param =>
        have hempty : chan = "" := by
          by_contra hchan
          simp [other, Event.agent, hchan] at h
        rcases (Manager.presetLookup_cases hstep).2 with ⟨_, rfl⟩ | ⟨hchan, _⟩
        · rfl
        · exact absurd hempty hchan
    | _ => exact Manager.flags_kept (by simp) hstep
  rw [hs']
  exact hflags

/-- The flags say which mutex an operation has kept: `chanMapMutex` if any. -/
structure FlagsOk (s : Shared) : Prop where
  guarded : s.locks.Guarded
  named : ∀ a t param, s.place a ≠ .entered (.presetLookup t "" param)
  chanMap : s.manager.chanMapLocked = true ↔ s.locks.Stuck .chanMapMutex
  delChan : s.manager.delChanLocked = false ∧ ¬ s.locks.Stuck .delChanMutex

theorem mutex_of_not_unlocks {m : Manager} (h : sec.unlocks m = false) :
    sec.mutex = .chanMapMutex := by
  cases sec with
  | presetLookup t chan param => rfl
  | _ => cases h

theorem named_step {e : SharedEvent}
    (hnamed : ∀ a t param, s.place a ≠ .entered (.presetLookup t "" param))
    (h : s.step e = some s') : ∀ a t param, s'.place a ≠ .entered (.presetLookup t "" param) := by
  have hset : ∀ (r : Shared) b place, r.place = s.place →
      (∀ t param, place ≠ .entered (.presetLookup t "" param)) →
      ∀ a t param, (r.setPlace b place).place a ≠ .entered (.presetLookup t "" param) := by
    intro r b place hr hplace a t param
    by_cases hab : a = b
    · rw [place_setPlace, hab, Function.update_self]
      exact hplace t param
    · rw [place_setPlace, Function.update_of_ne hab, hr]
      exact hnamed a t param
  cases e with
  | lock sec =>
      obtain ⟨_, hready, _, rfl⟩ := lock_cases h
      apply hset _ _ _ rfl
      intro t param hsec
      cases hsec
      simp [Section.ready] at hready
  | body b =>
      obtain ⟨sec, manager, _, _, rfl⟩ := body_cases h
      apply hset _ _ _ rfl
      intro t param
      split
      · simp
      · simp
  | unlock b =>
      obtain ⟨m, _, rfl⟩ := unlock_cases h
      apply hset _ _ _ rfl
      simp
  | other e =>
      obtain ⟨manager, _, rfl⟩ := other_cases h
      exact hnamed

theorem not_keeps_delChanMutex {e : SharedEvent} : ¬ Keeps s e .delChanMutex := by
  rintro ⟨a, sec, _, _, hunlocks, hmutex⟩
  rw [mutex_of_not_unlocks hunlocks] at hmutex
  cases hmutex

theorem flags_step {e : SharedEvent}
    (hnamed : ∀ a t param, s.place a ≠ .entered (.presetLookup t "" param))
    (h : s.step e = some s') :
    (s'.manager.chanMapLocked = true ↔
      s.manager.chanMapLocked = true ∨ Keeps s e .chanMapMutex) ∧
    s'.manager.delChanLocked = s.manager.delChanLocked := by
  have hkept : s'.manager.flags = s.manager.flags → (∀ a, e ≠ .body a) →
      (s'.manager.chanMapLocked = true ↔
        s.manager.chanMapLocked = true ∨ Keeps s e .chanMapMutex) ∧
      s'.manager.delChanLocked = s.manager.delChanLocked := by
    intro hflags he
    obtain ⟨hchanMap, hdelChan⟩ := Prod.mk.inj hflags
    simp [Keeps, he, hchanMap, hdelChan]
  cases e with
  | lock sec =>
      obtain ⟨_, _, _, rfl⟩ := lock_cases h
      exact hkept rfl (by simp)
  | body a =>
      obtain ⟨sec, manager, hplace, hbody, rfl⟩ := body_cases h
      have hsec : ∀ t param, sec ≠ .presetLookup t "" param := by
        rintro t param rfl
        exact hnamed a t param hplace
      obtain ⟨hchanMap, hdelChan⟩ := Prod.mk.inj (flags_body hsec hbody)
      refine ⟨?_, hdelChan⟩
      rw [show (Shared.setPlace _ a _).manager.chanMapLocked = manager.chanMapLocked from rfl,
        hchanMap, Bool.or_eq_true, Bool.not_eq_true']
      apply or_congr_right
      constructor
      · intro hunlocks
        exact ⟨a, sec, rfl, hplace, hunlocks, (mutex_of_not_unlocks hunlocks).symm⟩
      · rintro ⟨_, _, he, hplace', hunlocks, _⟩
        cases he
        rw [hplace] at hplace'
        cases hplace'
        exact hunlocks
  | unlock a =>
      obtain ⟨m, _, rfl⟩ := unlock_cases h
      exact hkept rfl (by simp)
  | other e => exact hkept (flags_other h) (by simp)

theorem flagsOk_step {e : SharedEvent} (hs : FlagsOk s) (h : s.step e = some s') : FlagsOk s' := by
  obtain ⟨hchanMap, hdelChan⟩ := flags_step hs.named h
  refine ⟨guarded_step hs.guarded h, named_step hs.named h, ?_, ?_⟩
  · rw [hchanMap, stuck_step hs.guarded h, hs.chanMap]
  · rw [hdelChan, stuck_step hs.guarded h]
    exact ⟨hs.delChan.1, not_or.mpr ⟨hs.delChan.2, not_keeps_delChanMutex⟩⟩

/-- The coarser machine has `chanMapMutex` locked exactly where an operation has kept it. No operation
ever keeps `delChanMutex`. -/
theorem flagsOk_of_run {es : List SharedEvent} (hrun : run step init es = some s) : FlagsOk s := by
  have hinit : FlagsOk init := by
    refine ⟨init_guarded, by simp [init], ?_, rfl, ?_⟩
    · simp [init, locks, Locks.Stuck, Manager.init]
    · simp [init, locks, Locks.Stuck]
  exact (statesHold_of_invariant (fun _ _ _ => flagsOk_step) hinit).last hrun

end Shared

end GMProxy.TdChannel
