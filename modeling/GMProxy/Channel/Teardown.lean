import GMProxy.Channel.Frame
import GMProxy.Library.Machine

/-!
# The records that the deletion worker frees

The worker takes a channel out of the table first; much later it frees the record, whoever has come to
use it by then.
-/

namespace GMProxy.TdChannel

open Machine

variable {s s' : Manager} {e : Event} {t : Nat}

namespace Manager

/-- A command goes on with a `Channel` that is still allocated. -/
def UsesAllocated (s : Manager) : Event → Prop
  | .codecWrite t | .codecUpdate t | .presetWrite t | .presetUpdate t =>
      ∀ p, (s.threads t).uses = some p → s.heap p ≠ none
  | _ => True

/-- The worker frees a `Channel` that no command has looked up and is still going to use. -/
def DeletesUnused (s : Manager) : Event → Prop
  | .workerDelete => ∀ chanId p, s.worker = .unlinked chanId p → ∀ t, (s.threads t).uses ≠ some p
  | _ => True

/-- Every `Channel` that a command is going to use is allocated. -/
def UsersOk (s : Manager) : Prop := ∀ t p, (s.threads t).uses = some p → s.heap p ≠ none

private theorem found_allocated (hrec : s.ledger.RecordsOk) {key : String} {p : Ptr}
    (hp : s.chanMap.lookup key = some (some p)) : s.heap p ≠ none := by
  intro hnone
  exact entry_allocated hrec hp (congrArg (Option.map Channel.pid) hnone)

private theorem heap_kept (h : step s e = some s') (hdelete : e ≠ .workerDelete) {p : Ptr}
    (hp : s.heap p ≠ none) : s'.heap p ≠ none := by
  have hsome {c : Option Channel} : c ≠ none ↔ c.map Channel.pid ≠ none := by
    cases c <;> simp
  cases e with
  | createBuild t made =>
      obtain ⟨channel, param, fpid, -, rfl⟩ := createBuild_cases h
      have hheap : Function.update s.heap s.nextPtr (some ⟨fpid, fifoPath channel, channel, param⟩) p ≠
          none := by
        by_cases hnew : p = s.nextPtr
        · rw [hnew, Function.update_self]
          exact Option.some_ne_none _
        · rw [Function.update_of_ne hnew]
          exact hp
      cases made
      all_goals exact hheap
  | workerDelete => exact absurd rfl hdelete
  | _ =>
      rw [hsome, ((step_frame h).records rfl).2 p]
      exact hsome.mp hp

private theorem uses_setThread {pc : Pc} {r : Manager} (hthreads : r.threads = s.threads)
    (hpc : ∀ p, pc.uses = some p →
      (s.threads t).uses = some p ∨ ∃ key, s.chanMap.lookup key = some (some p)) (u : Nat) (p : Ptr)
    (hu : ((r.setThread t pc).threads u).uses = some p) :
    (s.threads u).uses = some p ∨ ∃ key, s.chanMap.lookup key = some (some p) := by
  rcases view_setThread Pc.uses hthreads hu with ⟨rfl, hnew⟩ | hold
  · exact hpc p hnew
  · exact Or.inl hold

private theorem command_uses (hcommand : e.isCommand = true) (h : step s e = some s') (u : Nat)
    (p : Ptr) (hu : (s'.threads u).uses = some p) :
    (s.threads u).uses = some p ∨ ∃ key, s.chanMap.lookup key = some (some p) := by
  cases e with
  | codecLookup t channel rate resolution maxBitrate =>
      obtain ⟨-, ⟨q, hq, rfl⟩ | ⟨-, rfl⟩⟩ := codecLookup_cases h
      · refine uses_setThread (s := s) (r := s.touch channel) rfl (fun p hp => ?_) u p hu
        exact Or.inr ⟨channel, by rw [hq, Option.some.inj hp]⟩
      · exact Or.inl hu
  | codecWrite t =>
      obtain ⟨q, para, hfound, rfl⟩ := codecWrite_cases h
      refine uses_setThread (s.writeCommand_kept q _).1 (fun p hp => ?_) u p hu
      rw [hfound]
      exact Or.inl hp
  | codecUpdate t =>
      obtain ⟨q, para, -, rfl⟩ := codecUpdate_cases h
      refine uses_setThread (s.updateParam_kept q _).1 (fun p hp => ?_) u p hu
      cases hp
  | presetLookup t chan param =>
      obtain ⟨-, ⟨-, rfl⟩ | ⟨-, -, ⟨q, hq, rfl⟩ | ⟨-, rfl⟩⟩⟩ := presetLookup_cases h
      · exact Or.inl hu
      · refine uses_setThread (s := s) (r := s.touch chan) rfl (fun p hp => ?_) u p hu
        exact Or.inr ⟨chan, by rw [hq, Option.some.inj hp]⟩
      · exact Or.inl hu
  | presetWrite t =>
      obtain ⟨q, param, hfound, rfl⟩ := presetWrite_cases h
      refine uses_setThread (s.writeCommand_kept q _).1 (fun p hp => ?_) u p hu
      rw [hfound]
      exact Or.inl hp
  | presetUpdate t =>
      obtain ⟨q, param, -, rfl⟩ := presetUpdate_cases h
      refine uses_setThread (s.updateParam_kept q _).1 (fun p hp => ?_) u p hu
      cases hp
  | _ => cases hcommand

private theorem usersOk_step (hrec : s.ledger.RecordsOk) (husers : s.UsersOk)
    (hunused : s.DeletesUnused e) (h : step s e = some s') : s'.UsersOk := by
  intro u p hu
  by_cases hcommand : e.isCommand = true
  · have hdelete : e ≠ .workerDelete := by
      rintro rfl
      cases hcommand
    apply heap_kept h hdelete
    rcases command_uses hcommand h u p hu with hold | ⟨key, hkey⟩
    · exact husers u p hold
    · exact found_allocated hrec hkey
  · rw [(step_frame h).uses (by simpa using hcommand) u] at hu
    by_cases hdelete : e = .workerDelete
    · subst hdelete
      obtain ⟨chanId, q, hunlinked, rfl⟩ := workerDelete_cases h
      have hne : p ≠ q := by
        rintro rfl
        exact hunused chanId p hunlinked u hu
      have hsame : Function.update s.heap q none p = s.heap p := Function.update_of_ne hne ..
      intro hnone
      exact husers u p hu (hsame.symm.trans hnone)
    · exact heap_kept h hdelete (husers u p hu)

private theorem usesAllocated (husers : s.UsersOk) (e : Event) : s.UsesAllocated e := by
  cases e with
  | codecWrite t | codecUpdate t | presetWrite t | presetUpdate t => exact husers t
  | _ => trivial

private theorem exists_use {u : Nat} {p : Ptr} (hu : (s.threads u).uses = some p)
    (hfreed : s.heap p = none) : ∃ e s', step s e = some s' ∧ ¬ s.UsesAllocated e := by
  cases hpc : s.threads u with
  | codecFound q para =>
      refine ⟨.codecWrite u, _, by simp only [step, codecWrite, hpc]; rfl, fun hall => ?_⟩
      exact hall p hu hfreed
  | codecWritten q para =>
      refine ⟨.codecUpdate u, _, by simp only [step, codecUpdate, hpc]; rfl, fun hall => ?_⟩
      exact hall p hu hfreed
  | presetFound q param =>
      refine ⟨.presetWrite u, _, by simp only [step, presetWrite, hpc]; rfl, fun hall => ?_⟩
      exact hall p hu hfreed
  | presetWritten q param =>
      refine ⟨.presetUpdate u, _, by simp only [step, presetUpdate, hpc]; rfl, fun hall => ?_⟩
      exact hall p hu hfreed
  | _ =>
      rw [hpc] at hu
      cases hu

end Manager

private theorem deletion_uses {events : List Event} (hrun : Machine.run step Manager.init events = some s)
    (h : step s e = some s') (hused : ¬ s.DeletesUnused e) :
    ∃ e', ¬ StepsMeet step Manager.UsesAllocated Manager.init (events ++ [e, e']) := by
  cases e with
  | workerDelete =>
      obtain ⟨chanId, p, hunlinked, rfl⟩ := Manager.workerDelete_cases h
      have huser : ∃ u, (s.threads u).uses = some p := by
        by_contra hnone
        apply hused
        intro chanId' q hq u hu
        rw [hunlinked] at hq
        cases hq
        exact hnone ⟨u, hu⟩
      obtain ⟨u, hu⟩ := huser
      obtain ⟨e', s'', hstep, hfails⟩ :=
        Manager.exists_use (s := { s with worker := .idle }.setHeap p none) hu (Function.update_self ..)
      refine ⟨e', fun hall => hfails ?_⟩
      have hwhole : Machine.run step Manager.init (events ++ [.workerDelete]) =
          some ({ s with worker := .idle }.setHeap p none) := by
        rw [Machine.run_append, hrun, Option.bind_some, Machine.run_cons h]
        rfl
      rw [List.append_cons] at hall
      exact hall.last hwhole hstep
  | _ => exact absurd trivial hused

private theorem init_usersOk : Manager.init.UsersOk := nofun

/-- In a run in which the worker frees no record that a command is still going to use, no command
uses a freed record. Where it frees one, the command can go on and use it. -/
theorem usesAllocated_of_deletesUnused (events : List Event)
    (hunused : StepsMeet step Manager.DeletesUnused Manager.init events) :
    StepsMeet step Manager.UsesAllocated Manager.init events ∧
      ∀ s e s', Machine.run step Manager.init events = some s → step s e = some s' →
        ¬ s.DeletesUnused e →
          ∃ e', ¬ StepsMeet step Manager.UsesAllocated Manager.init (events ++ [e, e']) := by
  constructor
  · refine hunused.imp (P := fun s => s.ledger.RecordsOk ∧ s.UsersOk) ?_ ?_
      ⟨init_recordsOk, init_usersOk⟩
    · intro s e s' hs hC h
      exact ⟨recordsOk_step hs.1 h, Manager.usersOk_step hs.1 hs.2 hC h⟩
    · intro s e s' hs _ _
      exact Manager.usesAllocated hs.2 e
  · intro s e s' hrun h hused
    exact deletion_uses hrun h hused

/-- A channel that gets a command and is deleted up to the freeing of its record. -/
private def unlinking : List Event :=
  [.createCheck 0 "x" {}, .createFork 0 5, .createBuild 0 true, .createInsert 0,
    .codecLookup 1 "x" 10 "720p" 200000, .codecWrite 1, .codecUpdate 1, .delChannel "x", .workerPop,
    .workerTake, .workerKill, .workerWait 5, .workerUnlink]

theorem unlinking_usesAllocated :
    StepsMeet step Manager.UsesAllocated Manager.init (unlinking ++ [.workerDelete]) := by
  refine (usesAllocated_of_deletesUnused _ (StepsMeet.concat ?_ rfl ?_)).1
  · apply Machine.stepsMeet_of_forall
    intro s e he
    simp only [unlinking, List.mem_cons, List.not_mem_nil, or_false] at he
    rcases he with rfl | rfl | rfl | rfl | rfl | rfl | rfl | rfl | rfl | rfl | rfl | rfl | rfl <;>
      trivial
  · intro chanId p _ t hu
    rcases t with _ | _ | t
    · cases hu
    · cases hu
    · cases hu

theorem deletion_not_usesAllocated :
    ¬ StepsMeet step Manager.UsesAllocated Manager.init ([.createCheck 0 "x" {}, .createFork 0 5,
      .createBuild 0 true, .createInsert 0, .codecLookup 1 "x" 10 "720p" 200000, .delChannel "x",
      .workerPop, .workerTake, .workerKill, .workerWait 5, .workerUnlink, .workerDelete] ++
        [.codecWrite 1]) := by
  intro h
  exact h.last rfl rfl 0 rfl rfl

end GMProxy.TdChannel
