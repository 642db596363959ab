import GMProxy.Channel.Draining

/-!
# The order of deletions

`delChannel` pushes a name to the front of the list and the worker pops the front: the last request
comes first. What that order changes is which children are reaped, and only when a channel whose
`fork` failed is among those removed.
-/

namespace GMProxy.TdChannel

open Machine Service

namespace ChanMap

variable {m : ChanMap} {name name' key : String}

/-- What the worker does to the table for a name: `chanMap[chanId]`, and `erase` if there is a
`Channel`. -/
def remove (m : ChanMap) (name : String) : ChanMap :=
  match (m.subscript name).1 with
  | some _ => (m.subscript name).2.erase name
  | none => (m.subscript name).2

/-- The empty name is what the worker finds when there is nothing to do. -/
def serve (m : ChanMap) (name : String) : ChanMap := if name = "" then m else m.remove name

theorem lookup_remove (m : ChanMap) (name key : String) :
    (m.remove name).lookup key =
      if key = name then (if (m.subscript name).1 = none then some none else none)
      else m.lookup key := by
  unfold remove
  by_cases hkey : key = name
  · subst hkey
    cases hsub : (m.subscript key).1 with
    | some p => simp
    | none => simp [lookup_subscript, hsub]
  · cases hsub : (m.subscript name).1 with
    | some p => simp [hkey, lookup_subscript]
    | none => simp [hkey, lookup_subscript]

private theorem subscript_remove (hne : name ≠ name') :
    ((m.remove name').subscript name).1 = (m.subscript name).1 := by
  apply Option.ext
  intro p
  rw [subscript_eq_some, subscript_eq_some, lookup_remove, if_neg hne]

theorem remove_comm (m : ChanMap) (name name' : String) :
    (m.remove name).remove name' = (m.remove name').remove name := by
  by_cases hne : name = name'
  · rw [hne]
  · apply Finmap.ext_lookup
    intro key
    simp only [lookup_remove, subscript_remove hne, subscript_remove (Ne.symm hne)]
    by_cases hkey : key = name
    · have hkey' : key ≠ name' := fun h => hne (hkey.symm.trans h)
      simp only [if_pos hkey, if_neg hkey']
    · simp only [if_neg hkey]

/-- The worker serves each name by itself: the table in the end depends on which names there are. -/
theorem serve_comm (m : ChanMap) (name name' : String) :
    (m.serve name).serve name' = (m.serve name').serve name := by
  unfold serve
  split
  · rfl
  · split
    · rfl
    · exact remove_comm m name name'

theorem foldl_serve_perm {names names' : List String} (h : names.Perm names') (m : ChanMap) :
    names.foldl serve m = names'.foldl serve m := by
  have : RightCommutative serve := ⟨serve_comm⟩
  exact h.foldl_eq m

end ChanMap

namespace Manager

variable {s s' : Manager} {e : Event} {names : List String}

/-- The table when the worker has served the names it holds. -/
def tableAfter (s : Manager) : ChanMap :=
  match s.worker with
  | .popped chanId => s.delChanList.foldl ChanMap.serve (s.chanMap.remove chanId)
  | _ => s.delChanList.foldl ChanMap.serve s.chanMap

private theorem tableAfter_step (hworker : e.isWorker = true)
    (h : step s e = some s') : s'.tableAfter = s.tableAfter := by
  cases e with
  | workerPop =>
      obtain ⟨-, hidle, ⟨-, rfl⟩ | ⟨chanId, rest, hlist, ⟨hname, rfl⟩ | ⟨hname, rfl⟩⟩⟩ :=
        workerPop_cases h
      · rfl
      · simp [tableAfter, hidle, hlist, ChanMap.serve, hname]
      · simp [tableAfter, hidle, hlist, ChanMap.serve, hname]
  | workerTake =>
      obtain ⟨-, chanId, hpopped, ⟨p, hp, rfl⟩ | ⟨hnone, rfl⟩⟩ := workerTake_cases h
      · simp [tableAfter, hpopped, ChanMap.remove, ChanMap.subscript_eq_some.mpr hp]
      · simp [tableAfter, hpopped, ChanMap.remove, hnone, touch]
  | workerKill =>
      obtain ⟨chanId, p, c, htaken, -, rfl⟩ := workerKill_cases h
      simp [tableAfter, htaken, kill]
  | workerWait ret =>
      obtain ⟨chanId, p, c, r, hkilled, -, hwait, hworker⟩ := workerWait_cases h
      obtain ⟨children, rfl⟩ := waitpid_eq hwait
      rcases hworker with ⟨-, rfl⟩ | ⟨-, rfl⟩
      all_goals simp [tableAfter, hkilled]
  | workerUnlink =>
      obtain ⟨chanId, p, c, hwaited, -, rfl⟩ := workerUnlink_cases h
      simp [tableAfter, hwaited]
  | workerDelete =>
      obtain ⟨chanId, p, hunlinked, rfl⟩ := workerDelete_cases h
      simp [tableAfter, hunlinked, setHeap]
  | _ => cases hworker

private theorem tableAfter_run {events : List Event} (hworker : ∀ e ∈ events, e.isWorker = true)
    (hrun : run step s events = some s') : s'.tableAfter = s.tableAfter := by
  induction events generalizing s with
  | nil =>
      obtain rfl := Option.some.inj hrun
      rfl
  | cons e events ih =>
      obtain ⟨s₁, h, hrest⟩ := Option.bind_eq_some_iff.mp hrun
      obtain ⟨he, hevents⟩ := List.forall_mem_cons.mp hworker
      rw [ih hevents hrest, tableAfter_step he h]

private theorem ready_names (hready : s.Ready) (names : List String) :
    Ready { s with delChanList := names } where
  sound := ⟨hready.sound.records, hready.sound.children, hready.sound.popped⟩
  chanMap := hready.chanMap
  delChan := hready.delChan

private theorem pending_names (hidle : s.worker = .idle) (names : List String) :
    pending { s with delChanList := names } = requests s.wantedBy names :=
  pending_idle hidle

theorem drains_chanMap (hidle : s.worker = .idle) (h : s.Drains names s') :
    s'.chanMap = names.foldl ChanMap.serve s.chanMap := by
  obtain ⟨events, hworker, -, hrun, hlist, hidle'⟩ := h
  have hafter := tableAfter_run hworker hrun
  simpa [tableAfter, hidle, hidle', hlist] using hafter

theorem drains_serves (hready : s.Ready) (hidle : s.worker = .idle) (h : s.Drains names s') :
    Serves (requests s.wantedBy names) s.unreaped (s.signalledIn s') s'.unreaped := by
  obtain ⟨events, hworker, hwaits, hrun, hlist, hidle'⟩ := h
  have hserves := serves_run (ready_names hready names) hworker hwaits hrun hlist hidle'
  have hasked : asked { s with delChanList := names } = ∅ := by
    simp [asked, hidle]
  rw [hasked, Set.empty_union, pending_names hidle] at hserves
  exact hserves

theorem exists_drains (hready : s.Ready) (hidle : s.worker = .idle) {A W : Set Int}
    (h : Serves (requests s.wantedBy names) s.unreaped A W) :
    ∃ s', s.Drains names s' ∧ s'.unreaped = W := by
  rw [← pending_names hidle] at h
  obtain ⟨events, s', hworker, hwaits, hrun, ⟨hlist, hidle'⟩, hleft⟩ :=
    exists_run (ready_names hready names) h
  exact ⟨s', ⟨events, hworker, hwaits, hrun, hlist, hidle'⟩, hleft⟩

/-- The worker can serve the names in every order, and in every order it comes to the same table and
has sent signals to the same children and reaped the same ones. -/
def OrderFree (s : Manager) (names : List String) : Prop :=
  ∀ names', names'.Perm names → (∃ s', s.Drains names' s') ∧
    ∀ s₁ s₂, s.Drains names s₁ → s.Drains names' s₂ →
      s₁.chanMap = s₂.chanMap ∧ s.signalledIn s₁ = s.signalledIn s₂ ∧
        s.reapedIn s₁ = s.reapedIn s₂

private theorem exists_drain (hready : s.Ready) (hidle : s.worker = .idle) (names : List String) :
    ∃ s', s.Drains names s' := by
  obtain ⟨A, W, h⟩ := exists_serves (requests s.wantedBy names) s.unreaped
  obtain ⟨s', hdrains, -⟩ := exists_drains hready hidle h
  exact ⟨s', hdrains⟩

private theorem drains_perm {names' : List String} {s₁ s₂ : Manager} (hready : s.Ready)
    (hidle : s.worker = .idle) (hperm : names'.Perm names) (h₁ : s.Drains names s₁)
    (h₂ : s.Drains names' s₂) :
    s₁.chanMap = s₂.chanMap ∧ s.signalledIn s₁ = s.signalledIn s₂ := by
  constructor
  · rw [drains_chanMap hidle h₁, drains_chanMap hidle h₂, ChanMap.foldl_serve_perm hperm]
  · rw [(drains_serves hready hidle h₁).asked_eq, (drains_serves hready hidle h₂).asked_eq]
    simp only [(requests_perm hperm).mem_iff]

theorem orderFree_iff_settled (hready : s.Ready) (hidle : s.worker = .idle) (names : List String) :
    s.OrderFree names ↔ Settled (requests s.wantedBy names) s.unreaped := by
  constructor
  · intro h rs hperm A V A' V' hserves hserves'
    obtain ⟨names', hnames, rfl⟩ := exists_requests_eq hperm
    obtain ⟨s₁, hdrains₁, rfl⟩ := exists_drains hready hidle hserves
    obtain ⟨s₂, hdrains₂, rfl⟩ := exists_drains hready hidle hserves'
    have hreaped := ((h names' hnames).2 s₁ s₂ hdrains₁ hdrains₂).2.2
    have hback {t : Manager} (ht : t.unreaped ⊆ s.unreaped) :
        s.unreaped \ s.reapedIn t = t.unreaped := Set.sdiff_sdiff_cancel_left ht
    rw [← hback hserves.left_subset, ← hback hserves'.left_subset, hreaped]
  · intro h names' hperm
    refine ⟨exists_drain hready hidle names', fun s₁ s₂ h₁ h₂ => ?_⟩
    obtain ⟨htable, hsignals⟩ := drains_perm hready hidle hperm h₁ h₂
    have hleft := h _ (requests_perm hperm) _ _ _ _ (drains_serves hready hidle h₁)
      (drains_serves hready hidle h₂)
    exact ⟨htable, hsignals, by rw [reapedIn, reapedIn, hleft]⟩

/-- The channels among `names` whose `fork` had failed. -/
def failedForks (s : Manager) (names : List String) : Finset String :=
  names.toFinset.filter fun name => s.pidOf name = some (-1)

private theorem wantedBy_open {name : String} :
    s.wantedBy name = some none ↔ s.pidOf name = some (-1) := by
  rw [wantedBy, Option.map_eq_some_iff]
  constructor
  · rintro ⟨pid, hpid, hwant⟩
    unfold want at hwant
    split at hwant
    · rw [hpid, ‹pid = -1›]
    · cases hwant
  · intro hpid
    exact ⟨-1, hpid, rfl⟩

private theorem wantedBy_named {name : String} {q : Int} (hq : q ≠ -1) :
    s.wantedBy name = some (some q) ↔ s.pidOf name = some q := by
  rw [wantedBy, Option.map_eq_some_iff]
  constructor
  · rintro ⟨pid, hpid, hwant⟩
    unfold want at hwant
    split at hwant
    · cases hwant
    · rw [hpid, Option.some.inj hwant]
  · intro hpid
    exact ⟨q, hpid, if_neg hq⟩

/-- The order in which the worker removes channels makes no difference exactly when no `fork` of
theirs had failed, or they are the channels of all children, or enough `fork`s had failed to reap all
children. -/
theorem orderFree_iff (hready : s.Ready) (hidle : s.worker = .idle) (names : List String) :
    s.OrderFree names ↔ s.failedForks names = ∅ ∨
      (∀ q ∈ s.unreaped, ∃ name ∈ names, s.pidOf name = some q) ∨
        s.unreaped.encard ≤ (s.failedForks names).card := by
  have hcount : (requests s.wantedBy names).count none = (s.failedForks names).card := by
    rw [count_requests, failedForks]
    simp only [wantedBy_open]
  have hopen : none ∉ requests s.wantedBy names ↔ s.failedForks names = ∅ := by
    rw [← List.count_eq_zero, hcount, Finset.card_eq_zero]
  have hnamed : (∀ q ∈ s.unreaped, some q ∈ requests s.wantedBy names) ↔
      ∀ q ∈ s.unreaped, ∃ name ∈ names, s.pidOf name = some q := by
    refine forall₂_congr fun q hq => ?_
    simp only [mem_requests, wantedBy_named (pid_of_unreaped hready hq)]
  rw [orderFree_iff_settled hready hidle, settled_iff, hopen, hnamed, hcount]

/-- Two channels with children, and names that come twice, are empty or unknown. -/
theorem creation_orderFree : ∃ s, run step Manager.init (creation "x" 5 ++ creation "y" 6) = some s ∧
    s.OrderFree ["x", "", "y", "x", "z"] := by
  have hrun : ∃ s, run step Manager.init (creation "x" 5 ++ creation "y" 6) = some s ∧
      s.chanMapLocked = false ∧ s.delChanLocked = false ∧ s.worker = .idle ∧
        s.failedForks ["x", "", "y", "x", "z"] = ∅ := ⟨_, rfl, rfl, rfl, rfl, by decide⟩
  obtain ⟨s, hs, hchanMap, hdelChan, hidle, hforks⟩ := hrun
  exact ⟨s, hs, (orderFree_iff ⟨sound_of_run hs, hchanMap, hdelChan⟩ hidle _).mpr (Or.inl hforks)⟩

private theorem waits_of_ne {s : Manager} (h : e ≠ .workerWait (-1)) : s.WaitsForChild e := by
  cases e with
  | workerWait ret => exact fun hret => absurd (congrArg Event.workerWait hret) h
  | _ => trivial

private theorem not_unreaped {q : Int} (h : (s.children q).map Child.reaped = some true) :
    q ∉ s.unreaped := by
  rintro ⟨child, hchild, hreaped⟩
  rw [hchild, Option.map_some, hreaped] at h
  cases h

private theorem failedFork_runs :
    ∃ s m s₁ s₂, run step Manager.init (creation "x" (-1) ++ creation "y" 5 ++ creation "z" 6) = some s ∧
      (s.chanMapLocked = false ∧ s.delChanLocked = false ∧ s.worker = .idle ∧ 6 ∈ s.unreaped) ∧
      run step { s with delChanList := ["x", "y"] }
        (waiting 5 ++ [.workerPop, .workerTake, .workerKill]) = some m ∧
      (m.worker = .killed "y" 1 ∧ (m.heap 1).map Channel.pid = some 5 ∧
        (m.children 5).map Child.reaped = some true) ∧
      step m (.workerWait (-1)) = some s₁ ∧
      (s₁.delChanList = [] ∧ s₁.worker = .idle ∧ 6 ∈ s₁.unreaped) ∧
      run step { s with delChanList := ["y", "x"] } (removal 5 ++ waiting 6) = some s₂ ∧
      (s₂.delChanList = [] ∧ s₂.worker = .idle ∧ (s₂.children 6).map Child.reaped = some true) :=
  ⟨_, _, _, _, rfl, ⟨rfl, rfl, rfl, _, rfl, rfl⟩, rfl, ⟨rfl, rfl, rfl⟩, rfl, ⟨rfl, rfl, _, rfl, rfl⟩,
    rfl, rfl, rfl, rfl⟩

/-- The `fork` of `x` failed, `y` and `z` have children. If `x` comes first, `waitpid` may reap the
child of `y` for it and the child of `z` stays; if `y` comes first, both are reaped. -/
theorem failedFork_not_orderFree :
    ∃ s, run step Manager.init (creation "x" (-1) ++ creation "y" 5 ++ creation "z" 6) = some s ∧
      s.Ready ∧ s.worker = .idle ∧ ¬ s.OrderFree ["x", "y"] := by
  obtain ⟨s, m, s₁, s₂, hrun, ⟨hchanMap, hdelChan, hidle, hbefore⟩, hm, ⟨hkilled, hpid, hgone⟩, hwait,
    ⟨hlist₁, hidle₁, hleft⟩, hrun₂, ⟨hlist₂, hidle₂, hreaped⟩⟩ := failedFork_runs
  have h₁ : s.Drains ["x", "y"] s₁ := by
    refine ⟨waiting 5 ++ [.workerPop, .workerTake, .workerKill] ++ [.workerWait (-1)], by decide,
      ?_, ?_, hlist₁, hidle₁⟩
    · have hfirst (s : Manager) : ∀ e ∈ waiting 5 ++ [.workerPop, .workerTake, .workerKill],
          s.WaitsForChild e := fun e he => waits_of_ne (by rintro rfl; simp [waiting] at he)
      apply (stepsMeet_of_forall hfirst).concat hm
      rintro - chanId p c hkilled' hc q hq haccepts
      obtain ⟨-, rfl⟩ := WorkerPc.killed.inj (hkilled.symm.trans hkilled')
      rw [hc, Option.map_some, Option.some.injEq] at hpid
      rcases haccepts with hopen | rfl
      · rw [hopen] at hpid
        cases hpid
      · rw [hpid] at hq
        exact not_unreaped hgone hq
    · rw [run_append, hm, Option.bind_some, run_cons hwait]
      rfl
  have h₂ : s.Drains ["y", "x"] s₂ := by
    have hall (s : Manager) : ∀ e ∈ removal 5 ++ waiting 6, s.WaitsForChild e :=
      fun e he => waits_of_ne (by rintro rfl; simp [removal, waiting] at he)
    exact ⟨removal 5 ++ waiting 6, by decide, stepsMeet_of_forall hall, hrun₂, hlist₂, hidle₂⟩
  refine ⟨s, hrun, ⟨sound_of_run hrun, hchanMap, hdelChan⟩, hidle, fun hfree => ?_⟩
  have hsame := ((hfree ["y", "x"] (List.Perm.swap ..)).2 s₁ s₂ h₁ h₂).2.2
  have hmem : 6 ∈ s.reapedIn s₂ := ⟨hbefore, not_unreaped hreaped⟩
  rw [← hsame] at hmem
  exact hmem.2 hleft

end Manager

end GMProxy.TdChannel
