import GMProxy.Library.Machine
import GMProxy.Channel.Refinement

/-!
# The table of channels

Which keys of `chanMap` hold a null pointer: the names that were looked up while they had no channel
and have not been created since. `channelsInfo2Json` reads the table without harm, and reports how
many channels there are, in exactly the states where there is no such name and no channel was
created over another one.
-/

namespace GMProxy.TdChannel

open Machine (StatesHold recorded)

/-- What an event does with the table. -/
inductive TableUse where
  | nothing
  | look (name : String)
  | create (name : String)
  | remove (name : String)
deriving DecidableEq, Repr

/-- A name is looked up by `[]`, entered with its channel, or taken out with its channel. -/
def Manager.tableUse (s : Manager) : Event → TableUse
  | .createCheck _ channel _ => .look channel
  | .createInsert t =>
      match s.threads t with
      | .createBuilt channel _ => .create channel
      | _ => .nothing
  | .workerTake =>
      match s.worker with
      | .popped chanId => if chanId ∈ s.live then .remove chanId else .look chanId
      | _ => .nothing
  | .codecLookup _ channel _ _ _ => .look channel
  | .presetLookup _ chan _ => if chan = "" then .nothing else .look chan
  | _ => .nothing

/-- What a run has done to the table: the names looked up while they had no channel and not created
since, the numbers of channels created and removed, and the number of those created under a name
that had a channel. -/
structure History where
  unanswered : Finset String
  created : Nat
  removed : Nat
  overwritten : Nat

def History.start : History := ⟨∅, 0, 0, 0⟩

/-- `names` are the names that have a channel. -/
def History.use (h : History) (names : Finset String) : TableUse → History
  | .nothing => h
  | .look name => { h with
      unanswered := if name ∈ names then h.unanswered else insert name h.unanswered }
  | .create name => { h with
      unanswered := h.unanswered.erase name
      created := h.created + 1
      overwritten := if name ∈ names then h.overwritten + 1 else h.overwritten }
  | .remove _ => { h with removed := h.removed + 1 }

def History.after (s : Manager) (e : Event) (h : History) : History := h.use s.live (s.tableUse e)

/-- While `chanMapMutex` is free, the table holds no null pointer, and `channelsInfo2Json` succeeds
and reports the number of channels created and not yet removed. -/
def TableOk (s : Manager) (h : History) : Prop :=
  s.chanMapLocked = false → (∀ key, s.chanMap.lookup key ≠ some none) ∧
    ∃ chanInfo, s.channelsInfo2Json = some ⟨h.created - h.removed, chanInfo⟩

private theorem mem_live {s : Manager} (hrec : s.ledger.RecordsOk) (key : String) :
    key ∈ s.live ↔ ∃ p, s.chanMap.lookup key = some (some p) := by
  have hlive : key ∈ s.live ↔ entryHolding key (s.chanMap.lookup key) ≠ .nothing := hrec.live key
  rw [hlive]
  cases s.chanMap.lookup key with
  | none => simp [entryHolding]
  | some entry =>
      cases entry with
      | none => simp [entryHolding]
      | some p => simp [entryHolding]

/-- What each use of the table does to it, and to the names that have a channel. -/
private def TableStep (s s' : Manager) : TableUse → Prop
  | .nothing => s'.chanMap = s.chanMap ∧ s'.live = s.live
  | .look name => s'.chanMap = (s.chanMap.subscript name).2 ∧ s'.live = s.live
  | .create name => ∃ p, s'.chanMap = s.chanMap.insert name (some p) ∧ s'.live = insert name s.live
  | .remove name => s'.chanMap = (s.chanMap.subscript name).2.erase name ∧
      s'.live = s.live.erase name ∧ name ∈ s.live

private theorem workerTake_table {s s' : Manager} (hrec : s.ledger.RecordsOk)
    (h : s.workerTake = some s') : TableStep s s' (s.tableUse .workerTake) := by
  obtain ⟨-, chanId, hpopped, ⟨p, hfound, rfl⟩ | ⟨hnone, rfl⟩⟩ := Manager.workerTake_cases h
  · have hlive : chanId ∈ s.live := (mem_live hrec chanId).mpr ⟨p, hfound⟩
    have huse : s.tableUse .workerTake = .remove chanId := by
      simp only [Manager.tableUse, hpopped, if_pos hlive]
    rw [huse]
    exact ⟨rfl, rfl, hlive⟩
  · have habsent : chanId ∉ s.live := by
      intro hlive
      obtain ⟨p, hp⟩ := (mem_live hrec chanId).mp hlive
      rw [ChanMap.subscript_eq_some.mpr hp] at hnone
      cases hnone
    have huse : s.tableUse .workerTake = .look chanId := by
      simp only [Manager.tableUse, hpopped, if_neg habsent]
    rw [huse]
    exact ⟨rfl, rfl⟩

private theorem step_table {s s' : Manager} {e : Event} (hrec : s.ledger.RecordsOk)
    (h : step s e = some s') : TableStep s s' (s.tableUse e) := by
  cases e with
  | createCheck t channel param =>
      obtain ⟨-, -, ⟨-, rfl⟩ | ⟨-, rfl⟩⟩ := Manager.createCheck_cases h
      all_goals exact ⟨rfl, rfl⟩
  | createFork t fpid =>
      obtain ⟨channel, param, -, ⟨-, rfl⟩ | ⟨-, -, rfl⟩⟩ := Manager.createFork_cases h
      all_goals exact ⟨rfl, rfl⟩
  | createBuild t made =>
      obtain ⟨channel, param, fpid, -, rfl⟩ := Manager.createBuild_cases h
      exact ⟨rfl, rfl⟩
  | createInsert t =>
      obtain ⟨-, channel, p, hbuilt, rfl⟩ := Manager.createInsert_cases h
      have huse : s.tableUse (.createInsert t) = .create channel := by
        simp only [Manager.tableUse, hbuilt]
      rw [huse]
      exact ⟨p, rfl, rfl⟩
  | childFifo pid made =>
      obtain ⟨child, -, rfl⟩ := Manager.childFifo_cases h
      exact ⟨rfl, rfl⟩
  | delChannel channle =>
      obtain ⟨-, rfl⟩ := Manager.delChannel_cases h
      exact ⟨rfl, rfl⟩
  | workerPop =>
      obtain ⟨-, -, ⟨-, rfl⟩ | ⟨chanId, rest, -, ⟨-, rfl⟩ | ⟨-, rfl⟩⟩⟩ := Manager.workerPop_cases h
      all_goals exact ⟨rfl, rfl⟩
  | workerTake => exact workerTake_table hrec h
  | workerKill =>
      obtain ⟨chanId, p, c, -, -, rfl⟩ := Manager.workerKill_cases h
      exact ⟨rfl, rfl⟩
  | workerWait ret =>
      obtain ⟨children, worker, rfl⟩ := Manager.workerWait_eq h
      exact ⟨rfl, rfl⟩
  | workerUnlink =>
      obtain ⟨chanId, p, c, -, -, rfl⟩ := Manager.workerUnlink_cases h
      exact ⟨rfl, rfl⟩
  | workerDelete =>
      obtain ⟨chanId, p, -, rfl⟩ := Manager.workerDelete_cases h
      exact ⟨rfl, rfl⟩
  | codecLookup t channel rate resolution maxBitrate =>
      obtain ⟨-, ⟨p, -, rfl⟩ | ⟨-, rfl⟩⟩ := Manager.codecLookup_cases h
      all_goals exact ⟨rfl, rfl⟩
  | codecWrite t =>
      obtain ⟨p, para, -, rfl⟩ := Manager.codecWrite_cases h
      exact (s.writeCommand_kept p _).2
  | codecUpdate t =>
      obtain ⟨p, para, -, rfl⟩ := Manager.codecUpdate_cases h
      exact (s.updateParam_kept p _).2
  | presetLookup t chan param =>
      obtain ⟨-, ⟨hempty, rfl⟩ | ⟨hnamed, -, hlook⟩⟩ := Manager.presetLookup_cases h
      · rw [Manager.tableUse, if_pos hempty]
        exact ⟨rfl, rfl⟩
      · rw [Manager.tableUse, if_neg hnamed]
        obtain ⟨p, -, rfl⟩ | ⟨-, rfl⟩ := hlook
        all_goals exact ⟨rfl, rfl⟩
  | presetWrite t =>
      obtain ⟨p, param, -, rfl⟩ := Manager.presetWrite_cases h
      exact (s.writeCommand_kept p _).2
  | presetUpdate t =>
      obtain ⟨p, param, -, rfl⟩ := Manager.presetUpdate_cases h
      exact (s.updateParam_kept p _).2

/-- The null entries are the names that were looked up without a channel. -/
def NullsAre (s : Manager) (names : Finset String) : Prop :=
  ∀ key, s.chanMap.lookup key = some none ↔ key ∈ names

private theorem lookup_subscript_null {s : Manager} (hrec : s.ledger.RecordsOk)
    {names : Finset String} (hnulls : NullsAre s names) (name key : String) :
    (s.chanMap.subscript name).2.lookup key = some none ↔
      key ∈ if name ∈ s.live then names else insert name names := by
  rw [ChanMap.lookup_subscript]
  by_cases hkey : key = name
  · subst hkey
    rw [if_pos rfl, Option.some.injEq, ChanMap.subscript_eq_none]
    by_cases hlive : key ∈ s.live
    · obtain ⟨p, hp⟩ := (mem_live hrec key).mp hlive
      rw [if_pos hlive, ← hnulls key, hp]
      simp
    · have hno : ¬ ∃ p, s.chanMap.lookup key = some (some p) := fun h => hlive ((mem_live hrec key).mpr h)
      rw [if_neg hlive]
      cases hlookup : s.chanMap.lookup key with
      | none => simp
      | some entry =>
          cases entry with
          | none => simp
          | some p => exact absurd ⟨p, hlookup⟩ hno
  · rw [if_neg hkey, hnulls key]
    split
    · rfl
    · rw [Finset.mem_insert, or_iff_right hkey]

private theorem nullsAre_step {s s' : Manager} {e : Event} {hist : History}
    (hrec : s.ledger.RecordsOk) (hnulls : NullsAre s hist.unanswered) (h : step s e = some s') :
    NullsAre s' (hist.after s e).unanswered := by
  intro key
  have htable := step_table hrec h
  rw [History.after]
  cases huse : s.tableUse e with
  | nothing =>
      rw [huse] at htable
      rw [htable.1]
      exact hnulls key
  | look name =>
      rw [huse] at htable
      rw [htable.1]
      exact lookup_subscript_null hrec hnulls name key
  | create name =>
      rw [huse] at htable
      obtain ⟨p, hmap, -⟩ := htable
      rw [hmap, History.use, Finset.mem_erase]
      by_cases hkey : key = name
      · rw [hkey, Finmap.lookup_insert]
        simp
      · rw [Finmap.lookup_insert_of_ne s.chanMap hkey, hnulls key]
        exact (and_iff_right hkey).symm
  | remove name =>
      rw [huse] at htable
      obtain ⟨hmap, -, hlive⟩ := htable
      rw [hmap, History.use]
      by_cases hkey : key = name
      · obtain ⟨p, hp⟩ := (mem_live hrec name).mp hlive
        rw [hkey, Finmap.lookup_erase, ← hnulls name, hp]
        simp
      · have hlook := lookup_subscript_null hrec hnulls name key
        rw [if_pos hlive] at hlook
        rw [Finmap.lookup_erase_ne hkey]
        exact hlook

/-- Every channel created is in the table, or removed, or overwritten. -/
def CountsOk (s : Manager) (h : History) : Prop :=
  s.live.card + h.overwritten + h.removed = h.created

private theorem countsOk_step {s s' : Manager} {e : Event} {hist : History}
    (hrec : s.ledger.RecordsOk) (hcounts : CountsOk s hist) (h : step s e = some s') :
    CountsOk s' (hist.after s e) := by
  have htable := step_table hrec h
  unfold CountsOk at hcounts ⊢
  rw [History.after]
  cases huse : s.tableUse e with
  | nothing =>
      rw [huse] at htable
      rw [htable.2]
      exact hcounts
  | look name =>
      rw [huse] at htable
      rw [htable.2]
      exact hcounts
  | create name =>
      rw [huse] at htable
      obtain ⟨p, -, hlive⟩ := htable
      rw [hlive, History.use]
      by_cases hname : name ∈ s.live
      · rw [Finset.insert_eq_of_mem hname, if_pos hname]
        dsimp only
        omega
      · rw [Finset.card_insert_of_notMem hname, if_neg hname]
        dsimp only
        omega
  | remove name =>
      rw [huse] at htable
      obtain ⟨-, hlive, hname⟩ := htable
      have hcard := Finset.card_erase_add_one hname
      rw [hlive, History.use]
      dsimp only
      omega

private theorem mapM_isSome {α β : Type} {f : α → Option β} {l : List α}
    (h : ∀ x ∈ l, ∃ y, f x = some y) : ∃ ys, l.mapM f = some ys := by
  induction l with
  | nil => exact ⟨[], rfl⟩
  | cons x xs ih =>
      obtain ⟨y, hy⟩ := h x (List.mem_cons_self ..)
      obtain ⟨ys, hys⟩ := ih fun z hz => h z (List.mem_cons_of_mem x hz)
      exact ⟨y :: ys, by simp [List.mapM_cons, hy, hys]⟩

private theorem mapM_eq_none {α β : Type} {f : α → Option β} {l : List α} {x : α} (hx : x ∈ l)
    (h : f x = none) : l.mapM f = none := by
  induction l with
  | nil => cases hx
  | cons y ys ih =>
      rcases List.mem_cons.mp hx with rfl | hx
      · simp [List.mapM_cons, h]
      · simp [List.mapM_cons, ih hx]

/-- `channelsInfo2Json` dereferences every entry. -/
theorem channelsInfo2Json_of_null {s : Manager} (key : String)
    (hnull : s.chanMap.lookup key = some none) : s.channelsInfo2Json = none := by
  have hkey : key ∈ s.chanMap.keys.sort (· ≤ ·) :=
    (Finset.mem_sort _).mpr (Finmap.mem_keys.mpr (Finmap.mem_of_lookup_eq_some hnull))
  have hinfo : s.channelInfo key = none := by
    rw [Manager.channelInfo, hnull]
    rfl
  rw [Manager.channelsInfo2Json, mapM_eq_none hkey hinfo]
  rfl

/-- Without null entries, every entry is a channel that is allocated, and the keys are the names of
the live channels. -/
theorem channelsInfo2Json_of_no_null {s : Manager} (hrec : s.ledger.RecordsOk)
    (hnull : ∀ key, s.chanMap.lookup key ≠ some none) :
    ∃ chanInfo, s.channelsInfo2Json = some ⟨s.live.card, chanInfo⟩ := by
  have hentry (key : String) (hkey : key ∈ s.chanMap.keys) :
      ∃ p, s.chanMap.lookup key = some (some p) := by
    obtain ⟨entry, hlookup⟩ := Option.isSome_iff_exists.mp
      (Finmap.lookup_isSome.mpr (Finmap.mem_keys.mp hkey))
    cases entry with
    | none => exact absurd hlookup (hnull key)
    | some p => exact ⟨p, hlookup⟩
  have hkeys : s.chanMap.keys = s.live := by
    ext key
    rw [mem_live hrec key]
    constructor
    · exact hentry key
    · rintro ⟨p, hp⟩
      exact Finmap.mem_keys.mpr (Finmap.mem_of_lookup_eq_some hp)
  have hinfo (key : String) (hkey : key ∈ s.chanMap.keys.sort (· ≤ ·)) :
      ∃ info, s.channelInfo key = some info := by
    obtain ⟨p, hp⟩ := hentry key ((Finset.mem_sort _).mp hkey)
    have hallocated : (s.heap p).map Channel.pid ≠ none := Manager.entry_allocated hrec hp
    cases hheap : s.heap p with
    | none => exact absurd (by rw [hheap]; rfl) hallocated
    | some c => exact ⟨_, Manager.channelInfo_of_entry hp hheap⟩
  obtain ⟨chanInfo, hchanInfo⟩ := mapM_isSome hinfo
  refine ⟨chanInfo, ?_⟩
  rw [Manager.channelsInfo2Json, hchanInfo, hkeys]
  rfl

private theorem tableOk_iff {s : Manager} {h : History} (hrec : s.ledger.RecordsOk)
    (hnulls : NullsAre s h.unanswered) (hcounts : CountsOk s h) :
    TableOk s h ↔ (s.chanMapLocked = false → h.unanswered = ∅ ∧ h.overwritten = 0) := by
  have hempty : (∀ key, s.chanMap.lookup key ≠ some none) ↔ h.unanswered = ∅ := by
    rw [Finset.eq_empty_iff_forall_notMem]
    exact forall_congr' fun key => not_congr (hnulls key)
  unfold CountsOk at hcounts
  constructor
  · intro hok hfree
    obtain ⟨hnull, chanInfo, hreported⟩ := hok hfree
    obtain ⟨chanInfo', hlive⟩ := channelsInfo2Json_of_no_null hrec hnull
    rw [hreported] at hlive
    have htotal : h.created - h.removed = s.live.card :=
      congrArg Manager.ChannelsInfo.total (Option.some.inj hlive)
    exact ⟨hempty.mp hnull, by omega⟩
  · intro hcond hfree
    obtain ⟨hanswered, hkept⟩ := hcond hfree
    have hnull := hempty.mpr hanswered
    obtain ⟨chanInfo, hreported⟩ := channelsInfo2Json_of_no_null hrec hnull
    have htotal : s.live.card = h.created - h.removed := by omega
    rw [htotal] at hreported
    exact ⟨hnull, chanInfo, hreported⟩

/-- In every state of every run: the table is as promised exactly when the mutex is held, or every
name that was looked up without a channel has been created since and no channel was created under
a name that had one. -/
theorem tableOk_iff_answered (events : List Event) :
    StatesHold (recorded step History.after)
      (fun x => TableOk x.1 x.2 ↔
        (x.1.chanMapLocked = false → x.2.unanswered = ∅ ∧ x.2.overwritten = 0))
      (Manager.init, History.start) events := by
  have hnulls : NullsAre Manager.init History.start.unanswered := by
    intro key
    simp [Manager.init, History.start]
  have hinvariant : StatesHold (recorded step History.after)
      (fun x => x.1.ledger.RecordsOk ∧ NullsAre x.1 x.2.unanswered ∧ CountsOk x.1 x.2)
      (Manager.init, History.start) events := by
    apply Machine.statesHold_of_invariant
    · intro x e x' hx h
      obtain ⟨hrec, hnulls, hcounts⟩ := hx
      obtain ⟨hstep, hafter⟩ := Machine.recorded_eq_some.mp h
      rw [← hafter]
      exact ⟨recordsOk_step hrec hstep, nullsAre_step hrec hnulls hstep,
        countsOk_step hrec hcounts hstep⟩
    · exact ⟨init_recordsOk, hnulls, rfl⟩
  exact hinvariant.mono fun x hx => tableOk_iff hx.1 hx.2.1 hx.2.2

/-- Deleting a channel that does not exist leaves a null entry behind, which `channelsInfo2Json`
dereferences. -/
theorem unknownDeletion_null :
    ∃ s h, Machine.run (recorded step History.after)
        (Manager.init, History.start) [.delChannel "x", .workerPop, .workerTake] = some (s, h) ∧
      s.chanMap.lookup "x" = some none ∧ s.channelsInfo2Json = none ∧ ¬ TableOk s h :=
  ⟨_, _, rfl, by decide, channelsInfo2Json_of_null "x" (by decide),
    fun h => (h rfl).1 "x" (by decide)⟩

end GMProxy.TdChannel
