import GMProxy.Channel.Reservation
import GMProxy.Channel.Signals

/-!
# Conservation of children

When one thread creates the channels and no outside call fails, every child is registered by that
thread, recorded in the table, or torn down by the worker, until it is reaped.
-/

namespace GMProxy.TdChannel

open Machine Custody

namespace Ledger

variable {l l' : Ledger} {a b : Place} {pid : Int}

/-- Every child that has not been reaped is in some place. -/
def Covered (l : Ledger) : Prop :=
  ∀ pid c, l.child pid = some c → c.reaped = false → ∃ a, l.pidAt a = some pid

/-- No place stands for a `fork` that failed. -/
def Succeeded (l : Ledger) : Prop := ∀ a, l.pidAt a ≠ some (-1)

/-- A step behind which no `fork` has failed, no channel has been overwritten in the table and the
worker has not dropped a channel. -/
structure Orderly (l l' : Ledger) : Prop where
  forked : ∀ t name, l'.holding (.thread t) ≠ .forked name (-1)
  entries : ∀ key, l.holding (.entry key) ≠ .nothing →
    l'.holding (.entry key) = .nothing ∨ l'.holding (.entry key) = l.holding (.entry key)
  worker : ∀ name p, l.holding .worker = .channel name p → l'.holding .worker ≠ .nothing

private theorem ne_of_empty (hempty : l.holding a = .nothing) (h : l.pidAt b = some pid) : b ≠ a := by
  intro hba
  rw [hba, pidAt, hempty] at h
  cases h

private theorem pidAt_put_empty {x : Holding} (hempty : l.holding a = .nothing)
    (h : l.pidAt b = some pid) : (l.put a x).pidAt b = some pid := by
  rw [pidAt_put, Function.update_of_ne (ne_of_empty hempty h), h]

private theorem pidAt_put_move {x : Holding} (hx : x.pid l.record = l.pidAt a)
    (hempty : l.holding b = .nothing) {c : Place} (h : l.pidAt c = some pid) :
    ∃ d, ((l.put a .nothing).put b x).pidAt d = some pid := by
  by_cases hca : c = a
  · refine ⟨b, ?_⟩
    rw [pidAt_put, Function.update_self, put_record, hx, ← hca, h]
  · have hcb : c ≠ b := ne_of_empty hempty h
    refine ⟨c, ?_⟩
    rw [pidAt_put, Function.update_of_ne hcb, pidAt_put, Function.update_of_ne hca, h]

private theorem pidAt_build (hrec : l.RecordsOk) {t : Nat} {name : String}
    (hheld : l.holding (.thread t) = .forked name pid) (b : Place) :
    pidAt { l.put (.thread t) (.channel name l.next) with
      record := Function.update l.record l.next (some pid), next := l.next + 1 } b = l.pidAt b := by
  change ((l.put (.thread t) (.channel name l.next)).holding b).pid
    (Function.update l.record l.next (some pid)) = _
  by_cases hb : b = .thread t
  · rw [hb, put_self, pidAt, hheld]
    exact Function.update_self ..
  · rw [put_other hb]
    exact pid_update (fun hp => hrec.allocated b l.next hp (hrec.fresh l.next (Nat.le_refl _))) ..

private theorem pidAt_delete (hrec : l.RecordsOk) {p : Nat} (hheld : l.holding .worker = .spent p)
    (b : Place) :
    pidAt { l.put .worker .nothing with record := Function.update l.record p none } b =
      l.pidAt b := by
  change ((l.put .worker .nothing).holding b).pid (Function.update l.record p none) = _
  by_cases hb : b = .worker
  · rw [hb, put_self, pidAt, hheld]
    rfl
  · rw [put_other hb]
    refine pid_update (fun hp => hb ?_) ..
    exact hrec.exclusive b .worker p hp (congrArg Holding.ptr hheld)

private theorem Orderly.entry_empty (hrec : l.RecordsOk) {t : Nat} {name : String} {p : Nat}
    {live : Finset String} (hheld : l.holding (.thread t) = .channel name p)
    (horderly : Orderly l { (l.put (.thread t) .nothing).put (.entry name) (.channel name p) with
      live := live }) : l.holding (.entry name) = .nothing := by
  by_contra hfull
  have hnew : ((l.put (.thread t) .nothing).put (.entry name) (.channel name p)).holding
      (.entry name) = .channel name p := put_self ..
  rcases horderly.entries name hfull with hnothing | hkept
  · cases hnew.symm.trans hnothing
  · have hboth := hrec.exclusive (.thread t) (.entry name) p (congrArg Holding.ptr hheld)
      (congrArg Holding.ptr (hkept.symm.trans hnew))
    cases hboth

private theorem Covered.reap (hcovered : l.Covered) {name : String} {p : Nat} {pid : Int}
    {c : ChildView} (hheld : l.holding .worker = .channel name p) (hpid : l.record p = some pid) :
    Covered { l.put .worker (.spent p) with
      child := Function.update l.child pid (some { c with reaped := true }) } := by
  intro pid' c' hc hreaped
  have hne : pid' ≠ pid := by
    rintro rfl
    have hnew : Function.update l.child pid' (some { c with reaped := true }) pid' = some c' := hc
    rw [Function.update_self, Option.some.injEq] at hnew
    rw [← hnew] at hreaped
    cases hreaped
  have hold : l.child pid' = some c' := (Function.update_of_ne hne ..).symm.trans hc
  obtain ⟨b, hb⟩ := hcovered pid' c' hold hreaped
  have hother : b ≠ .worker := by
    rintro rfl
    rw [pidAt_of_channel hheld, hpid, Option.some.injEq] at hb
    exact hne hb.symm
  refine ⟨b, ?_⟩
  exact (congrFun (pidAt_put l .worker (.spent p)) b).trans
    ((Function.update_of_ne hother ..).trans hb)

theorem Covered.step (hcovered : l.Covered) (hrec : l.RecordsOk) (hok : l.Succeeded)
    (hstep : Step l l') (horderly : Orderly l l') : l'.Covered := by
  cases hstep with
  | stutter => exact hcovered
  | forkFailed t name hempty =>
      intro pid c hc hreaped
      obtain ⟨b, hb⟩ := hcovered pid c hc hreaped
      exact ⟨b, pidAt_put_empty hempty hb⟩
  | fork t name pid hempty hpid hfree =>
      intro pid' c hc hreaped
      by_cases hnew : pid' = pid
      · subst hnew
        refine ⟨.thread t, ?_⟩
        exact congrArg (Holding.pid l.record) (put_self l (.thread t) (.forked name pid'))
      · have hold : l.child pid' = some c := (Function.update_of_ne hnew ..).symm.trans hc
        obtain ⟨b, hb⟩ := hcovered pid' c hold hreaped
        exact ⟨b, pidAt_put_empty hempty hb⟩
  | build t name pid hheld =>
      intro pid' c hc hreaped
      obtain ⟨b, hb⟩ := hcovered pid' c hc hreaped
      exact ⟨b, (pidAt_build hrec hheld b).trans hb⟩
  | insert t name p hheld =>
      intro pid c hc hreaped
      obtain ⟨b, hb⟩ := hcovered pid c hc hreaped
      have hempty := horderly.entry_empty hrec hheld
      exact pidAt_put_move (x := .channel name p) (pidAt_of_channel hheld).symm hempty hb
  | take name p hheld hidle =>
      intro pid c hc hreaped
      obtain ⟨b, hb⟩ := hcovered pid c hc hreaped
      exact pidAt_put_move (x := .channel name p) (pidAt_of_channel hheld).symm hidle hb
  | reap name p pid c hheld hpid hchild => exact hcovered.reap hheld hpid
  | spend name p hheld hpid =>
      have hfailed : l.pidAt .worker = some (-1) := by
        rw [pidAt_of_channel hheld, hpid]
      exact absurd hfailed (hok .worker)
  | lose name p hheld => exact absurd (put_self ..) (horderly.worker name p hheld)
  | delete p hheld =>
      intro pid c hc hreaped
      obtain ⟨b, hb⟩ := hcovered pid c hc hreaped
      exact ⟨b, (pidAt_delete hrec hheld b).trans hb⟩

/-- A step of a run gives a place no pid but one it found in some place, or a forked one. -/
theorem Succeeded.step (hok : l.Succeeded) (hrec : l.RecordsOk) (hstep : Step l l')
    (horderly : Orderly l l') : l'.Succeeded := by
  have hput {r : Ledger} {b : Place} {x : Holding} (hr : r.Succeeded)
      (hx : x.pid r.record ≠ some (-1)) : (r.put b x).Succeeded := by
    intro a ha
    rw [pidAt_put] at ha
    by_cases hab : a = b
    · rw [hab, Function.update_self] at ha
      exact hx ha
    · rw [Function.update_of_ne hab] at ha
      exact hr a ha
  cases hstep with
  | stutter => exact hok
  | forkFailed t name => exact absurd (put_self ..) (horderly.forked t name)
  | fork t name pid hempty hpid =>
      refine hput (b := .thread t) (x := .forked name pid) hok fun hfailed => ?_
      have heq : pid = -1 := Option.some.inj hfailed
      omega
  | build t name pid hheld =>
      intro a ha
      exact hok a ((pidAt_build hrec hheld a).symm.trans ha)
  | insert t name p hheld =>
      have hx : Holding.pid l.record (.channel name p) ≠ some (-1) := by
        have hthread := hok (.thread t)
        rw [pidAt_of_channel hheld] at hthread
        exact hthread
      exact hput (hput hok (x := .nothing) nofun) hx
  | take name p hheld =>
      have hx : Holding.pid l.record (.channel name p) ≠ some (-1) := by
        have hentry := hok (.entry name)
        rw [pidAt_of_channel hheld] at hentry
        exact hentry
      exact hput (hput hok (x := .nothing) nofun) hx
  | reap name p pid c => exact hput (b := .worker) (x := .spent p) hok nofun
  | spend name p => exact hput hok nofun
  | lose name p => exact hput hok nofun
  | delete p hheld =>
      intro a ha
      exact hok a ((pidAt_delete hrec hheld a).symm.trans ha)

end Ledger

variable {s s' : Manager} {e : Event} {creator : Nat}

namespace Manager

/-- One thread calls `createChannel`, every `fork` succeeds, and `waitpid` returns the pid it waits
for. -/
def Promised (creator : Nat) (s : Manager) : Event → Prop
  | .createCheck t _ _ => t = creator
  | .createFork _ fpid => fpid ≠ -1
  | .workerWait ret => ∀ chanId p c, s.worker = .killed chanId p → s.heap p = some c → ret = c.pid
  | _ => True

/-- A child that has not been reaped is in exactly one place: with a thread inside `createChannel`,
in an entry of the table or with the worker. A reaped one is in none. -/
structure StagesOk (s : Manager) : Prop where
  unreaped : ∀ pid child, s.children pid = some child → child.reaped = false →
    ∃! a, s.ledger.pidAt a = some pid
  reaped : ∀ pid child, s.children pid = some child → child.reaped = true →
    ∀ a, s.ledger.pidAt a ≠ some pid
  signals : ∀ pid child, s.children pid = some child → child.signals ≤ 1

/-- The worker signals a child that has been neither reaped nor signalled. -/
def KillsFresh (s : Manager) : Event → Prop
  | .workerKill => ∀ chanId p c, s.worker = .taken chanId p → s.heap p = some c →
      0 < c.pid ∧ ∃ child, s.children c.pid = some child ∧ child.reaped = false ∧ child.signals = 0
  | _ => True

/-- A child is signalled once, and then it is the one that the worker waits for. -/
def SignalsOk (s : Manager) : Prop :=
  ∀ pid child, s.children pid = some child → child.signals ≤ 1 ∧
    (child.reaped = false → child.signals ≠ 0 →
      ∃ chanId p, s.worker = .killed chanId p ∧ s.ledger.record p = some pid)

structure Kept (creator : Nat) (s : Manager) : Prop where
  records : s.ledger.RecordsOk
  children : s.ledger.ChildrenOk
  used : Exclusive s.reserved
  creators : ∀ t, (s.threads t).creates ≠ none → t = creator
  succeeded : s.ledger.Succeeded
  covered : s.ledger.Covered
  signals : s.SignalsOk

private theorem entries_orderly (hkept : s.Kept creator) (h : step s e = some s') (key : String)
    (hfull : s.ledger.holding (.entry key) ≠ .nothing) :
    s'.ledger.holding (.entry key) = .nothing ∨
      s'.ledger.holding (.entry key) = s.ledger.holding (.entry key) := by
  have hnone {entry : Option (Option Ptr)} (hlookup : s.chanMap.lookup key = entry) :
      entryHolding key entry ≠ .nothing := by
    rw [← hlookup]
    exact hfull
  rcases hlookup : s.chanMap.lookup key with _ | _ | p
  · exact absurd rfl (hnone hlookup)
  · exact absurd rfl (hnone hlookup)
  · rcases entry_kept h hlookup with hsame | ⟨-, -, hgone⟩ | ⟨t, q, rfl, hbuilt⟩
    · right
      rw [holding_entry hsame, holding_entry hlookup]
    · exact Or.inl (congrArg (entryHolding key) hgone)
    · have hfree := (keepsChannels hkept.used hkept.records (e := .createInsert t)).insert
      exact absurd hlookup (hfree t key q rfl hbuilt p)

private theorem forked_orderly (hok : s.ledger.Succeeded) (hpromised : s.Promised creator e)
    (h : step s e = some s') (t : Nat) (name : String) :
    s'.ledger.holding (.thread t) ≠ .forked name (-1) := by
  intro hfailed
  rcases holding_step h hfailed with hold | hnothing | ⟨u, channel, fpid, rfl, hforked⟩ |
    ⟨u, made, channel, param, fpid, -, -, hbuilt⟩
  · apply hok (.thread t)
    exact congrArg (Holding.pid s.ledger.record) hold
  · cases hnothing
  · cases hforked
    exact hpromised rfl
  · cases hbuilt

private theorem orderly (hkept : s.Kept creator) (hpromised : s.Promised creator e)
    (h : step s e = some s') : Ledger.Orderly s.ledger s'.ledger := by
  refine ⟨forked_orderly hkept.succeeded hpromised h, entries_orderly hkept h, ?_⟩
  intro name p hheld
  by_cases hwait : ∃ ret, e = .workerWait ret
  · obtain ⟨ret, rfl⟩ := hwait
    obtain ⟨chanId, q, c, r, hkilled, hheap, -, ⟨-, rfl⟩ | ⟨hother, -⟩⟩ := workerWait_cases h
    · exact Holding.noConfusion
    · exact absurd (hpromised chanId q c hkilled hheap) hother
  · have hmove := worker_move h
    change s.worker.holding = .channel name p at hheld
    change s'.worker.holding ≠ .nothing
    generalize s'.worker = w' at hmove ⊢
    generalize s.worker = w at hmove hheld
    cases hmove with
    | stays _ =>
        rw [hheld]
        exact Holding.noConfusion
    | kills => exact Holding.noConfusion
    | waits => exact absurd ⟨_, rfl⟩ hwait
    | gives => exact absurd ⟨_, rfl⟩ hwait
    | _ => cases hheld

private theorem step_ledger (hok : s.ledger.Succeeded) (h : step s e = some s') :
    s.ledger.Step s'.ledger := by
  rcases step_refines h with hstep | ⟨-, hstray⟩
  · exact hstep
  · obtain ⟨name, p, hheld, hrecord⟩ := hstray.without_child
    refine absurd ?_ (hok .worker)
    rw [Ledger.pidAt_of_channel hheld, hrecord]

private theorem creators_step (hcreators : ∀ t, (s.threads t).creates ≠ none → t = creator)
    (hpromised : s.Promised creator e) (h : step s e = some s') (t : Nat)
    (ht : (s'.threads t).creates ≠ none) : t = creator := by
  have hframe := step_frame h
  have hmoved {u : Nat} {pc : Pc} {r : Manager} (hthreads : r.threads = s.threads)
      (hu : u = creator) (hr : ((r.setThread u pc).threads t).creates ≠ none) : t = creator := by
    rcases view_setThread Pc.creates hthreads rfl with ⟨htu, -⟩ | hold
    · exact htu.trans hu
    · rw [← hold] at hr
      exact hcreators t hr
  have hinside {u : Nat} {pc : Pc} (hpc : s.threads u = pc) (hcreates : pc.creates ≠ none) :
      u = creator := by
    apply hcreators u
    rw [hpc]
    exact hcreates
  cases e with
  | createCheck u channel param =>
      obtain ⟨-, -, ⟨-, rfl⟩ | ⟨-, rfl⟩⟩ := createCheck_cases h
      · exact hcreators t ht
      · exact hmoved (r := s.touch channel) rfl hpromised ht
  | createFork u fpid =>
      obtain ⟨channel, param, hchecked, ⟨-, rfl⟩ | ⟨-, -, rfl⟩⟩ := createFork_cases h
      all_goals exact hmoved (u := u) rfl (hinside hchecked (Option.some_ne_none _)) ht
  | createBuild u made =>
      obtain ⟨channel, param, fpid, hforked, rfl⟩ := createBuild_cases h
      have hu := hinside hforked (Option.some_ne_none _)
      exact hmoved (u := u) rfl hu ht
  | createInsert u =>
      obtain ⟨-, channel, p, hbuilt, rfl⟩ := createInsert_cases h
      exact hmoved (u := u) rfl (hinside hbuilt (Option.some_ne_none _)) ht
  | _ =>
      rw [(hframe.creates rfl t).1] at ht
      exact hcreators t ht

private theorem alone_of_promised (hcreators : ∀ t, (s.threads t).creates ≠ none → t = creator)
    (hpromised : s.Promised creator e) (h : step s e = some s') : s.Alone e := by
  cases e with
  | createCheck t channel param =>
      obtain ⟨-, hidle, -⟩ := createCheck_cases h
      intro u hu
      have hut : u = t := by
        rw [show t = creator from hpromised]
        apply hcreators u
        rw [hu]
        exact Option.some_ne_none channel
      rw [hut, hidle] at hu
      cases hu
  | _ => trivial

private theorem signalsOk_of_waiting (hsignals : s.SignalsOk) (hchildren : s'.children = s.children)
    (hwaiting : ∀ chanId p pid, s.worker = .killed chanId p → s.ledger.record p = some pid →
      s'.worker = .killed chanId p ∧ s'.ledger.record p = some pid) : s'.SignalsOk := by
  intro pid child hchild
  rw [hchildren] at hchild
  obtain ⟨hle, hkilled⟩ := hsignals pid child hchild
  refine ⟨hle, fun hreaped hsignalled => ?_⟩
  obtain ⟨chanId, p, hworker, hrecord⟩ := hkilled hreaped hsignalled
  obtain ⟨hworker', hrecord'⟩ := hwaiting chanId p pid hworker hrecord
  exact ⟨chanId, p, hworker', hrecord'⟩

private theorem signalsOk_setChild (hsignals : s.SignalsOk) {r : Manager} {pid : Int} {child : Child}
    (hr : r.children = Function.update s.children pid (some child)) (hworker : r.worker = s.worker)
    (hheap : r.heap = s.heap)
    (hchild : child.signals ≤ 1 ∧ (child.reaped = false → child.signals ≠ 0 →
      ∃ chanId p, s.worker = .killed chanId p ∧ s.ledger.record p = some pid)) : r.SignalsOk := by
  have hrecord : r.ledger.record = s.ledger.record := by
    funext p
    exact congrArg (fun heap => (heap p).map Channel.pid) hheap
  intro pid' child' hfound
  rw [hworker, hrecord]
  rw [hr] at hfound
  by_cases hpid : pid' = pid
  · rw [hpid, Function.update_self] at hfound
    rw [hpid, ← Option.some.inj hfound]
    exact hchild
  · rw [Function.update_of_ne hpid] at hfound
    exact hsignals pid' child' hfound

private theorem held_child (hkept : s.Kept creator) {chanId : String} {p : Ptr} {c : Channel}
    (hheld : s.ledger.holding .worker = .channel chanId p) (hheap : s.heap p = some c) :
    0 < c.pid ∧ ∃ child, s.children c.pid = some child ∧ child.reaped = false := by
  have hpid : s.ledger.pidAt .worker = some c.pid := by
    rw [Ledger.pidAt_of_channel hheld, record_of_heap hheap]
  have hnot : c.pid ≠ -1 := by
    intro hfailed
    rw [hfailed] at hpid
    exact hkept.succeeded .worker hpid
  obtain ⟨hpos, view, hview, -, hreaped⟩ :=
    hkept.children.owned .worker c.pid (Ledger.childAt_eq_some.mpr ⟨hpid, hnot⟩)
  obtain ⟨child, hchild, rfl⟩ := Option.map_eq_some_iff.mp hview
  exact ⟨hpos, child, hchild, hreaped⟩

private theorem killsFresh (hkept : s.Kept creator) (e : Event) : s.KillsFresh e := by
  cases e with
  | workerKill =>
      intro chanId p c htaken hheap
      have hheld : s.ledger.holding .worker = .channel chanId p := holding_worker htaken
      obtain ⟨hpos, child, hchild, hreaped⟩ := held_child hkept hheld hheap
      refine ⟨hpos, child, hchild, hreaped, ?_⟩
      by_contra hsignalled
      obtain ⟨chanId', q, hkilled, -⟩ := (hkept.signals c.pid child hchild).2 hreaped hsignalled
      rw [htaken] at hkilled
      cases hkilled
  | _ => trivial

private theorem workerKill_signals (hkept : s.Kept creator) (h : s.workerKill = some s') :
    s'.SignalsOk := by
  obtain ⟨chanId, p, c, htaken, hheap, rfl⟩ := workerKill_cases h
  obtain ⟨hpos, child, hchild, hreaped, hnone⟩ :=
    killsFresh hkept .workerKill chanId p c htaken hheap
  intro pid child' hfound
  obtain ⟨old, hold, rfl⟩ := Option.map_eq_some_iff.mp hfound
  by_cases hpid : c.pid = pid
  · subst hpid
    obtain rfl := Option.some.inj (hchild.symm.trans hold)
    rw [if_pos ⟨Or.inr rfl, by simp [hreaped]⟩]
    refine ⟨?_, fun _ _ => ⟨chanId, p, rfl, ?_⟩⟩
    · dsimp only
      omega
    · exact record_of_heap hheap
  · have hother : ¬ ((c.pid = -1 ∨ c.pid = pid) ∧ ¬ old.reaped = true) := by
      rintro ⟨hall | hthis, -⟩
      · omega
      · exact hpid hthis
    rw [if_neg hother]
    obtain ⟨hle, hkilled⟩ := hkept.signals pid old hold
    refine ⟨hle, fun hreaped' hsignalled => ?_⟩
    obtain ⟨chanId', q, hworker, -⟩ := hkilled hreaped' hsignalled
    rw [htaken] at hworker
    cases hworker

private theorem workerWait_signals (hkept : s.Kept creator) {ret : Int}
    (hpromised : s.Promised creator (.workerWait ret)) (h : s.workerWait ret = some s') :
    s'.SignalsOk := by
  obtain ⟨chanId, p, c, r, hkilled, hheap, hwait, hpc⟩ := workerWait_cases h
  obtain rfl := hpromised chanId p c hkilled hheap
  obtain ⟨-, rfl⟩ | ⟨hother, -⟩ := hpc
  · obtain ⟨hpos, -⟩ := held_child hkept (holding_worker hkilled) hheap
    obtain ⟨hfailed, -⟩ | ⟨-, child, hchild, -, -, rfl⟩ := waitpid_cases hwait
    · omega
    · intro pid child' hfound
      by_cases hpid : pid = c.pid
      · have hreaped : Function.update s.children c.pid (some { child with reaped := true }) pid =
            some child' := hfound
        rw [hpid, Function.update_self] at hreaped
        rw [← Option.some.inj hreaped]
        exact ⟨(hkept.signals c.pid child hchild).1, nofun⟩
      · have hold : s.children pid = some child' := (setChild_other hpid).symm.trans hfound
        obtain ⟨hle, hwaited⟩ := hkept.signals pid child' hold
        refine ⟨hle, fun hreaped hsignalled => ?_⟩
        obtain ⟨chanId', q, hworker, hrecord⟩ := hwaited hreaped hsignalled
        rw [hkilled] at hworker
        cases hworker
        have hthis : some c.pid = some pid :=
          (record_of_heap hheap).symm.trans hrecord
        exact absurd (Option.some.inj hthis).symm hpid
  · exact absurd rfl hother

private theorem signalsOk_step (hkept : s.Kept creator) (hpromised : s.Promised creator e)
    (h : step s e = some s') : s'.SignalsOk := by
  have hframe := step_frame h
  have hidle {w : WorkerPc} (hw : s.worker = w) (hnot : ∀ chanId p, w ≠ .killed chanId p) :
      ∀ chanId p pid, s.worker = .killed chanId p → s.ledger.record p = some pid →
        s'.worker = .killed chanId p ∧ s'.ledger.record p = some pid := by
    intro chanId p pid hkilled
    rw [hw] at hkilled
    exact absurd hkilled (hnot chanId p)
  cases e with
  | createFork t fpid =>
      obtain ⟨channel, param, -, ⟨-, rfl⟩ | ⟨-, -, rfl⟩⟩ := createFork_cases h
      · exact hkept.signals
      · exact signalsOk_setChild hkept.signals rfl rfl rfl
          ⟨Nat.zero_le 1, fun _ hsignalled => absurd rfl hsignalled⟩
  | createBuild t made =>
      apply signalsOk_of_waiting hkept.signals (hframe.children rfl)
      intro chanId p pid hkilled hrecord
      have hallocated : s.ledger.record p ≠ none := by
        rw [hrecord]
        exact Option.some_ne_none pid
      have hkept := (record_step h (hkept.records.lt_next hallocated)).resolve_right nofun
      exact ⟨(hframe.worker rfl).trans hkilled, hkept.trans hrecord⟩
  | childFifo pid made =>
      obtain ⟨child, hchild, rfl⟩ := childFifo_cases h
      have hold := hkept.signals pid child hchild
      exact signalsOk_setChild hkept.signals rfl rfl rfl hold
  | workerPop =>
      obtain ⟨-, hw, -⟩ := workerPop_cases h
      exact signalsOk_of_waiting hkept.signals (hframe.children rfl) (hidle hw nofun)
  | workerTake =>
      obtain ⟨-, chanId, hw, -⟩ := workerTake_cases h
      exact signalsOk_of_waiting hkept.signals (hframe.children rfl) (hidle hw nofun)
  | workerKill => exact workerKill_signals hkept h
  | workerWait ret => exact workerWait_signals hkept hpromised h
  | workerUnlink =>
      obtain ⟨chanId, p, c, hw, -⟩ := workerUnlink_cases h
      exact signalsOk_of_waiting hkept.signals (hframe.children rfl) (hidle hw nofun)
  | workerDelete =>
      obtain ⟨chanId, p, hw, -⟩ := workerDelete_cases h
      exact signalsOk_of_waiting hkept.signals (hframe.children rfl) (hidle hw nofun)
  | _ =>
      apply signalsOk_of_waiting hkept.signals (hframe.children rfl)
      intro chanId p pid hkilled hrecord
      exact ⟨(hframe.worker rfl).trans hkilled, ((hframe.records rfl).2 p).trans hrecord⟩

theorem Kept.step (hkept : s.Kept creator) (hpromised : s.Promised creator e)
    (h : step s e = some s') : s'.Kept creator := by
  have hstep := step_ledger hkept.succeeded h
  have horderly := orderly hkept hpromised h
  exact {
    records := hkept.records.step hstep
    children := hkept.children.step hkept.records hstep
    used := exclusive_step hkept.used (alone_of_promised hkept.creators hpromised h) h
    creators := creators_step hkept.creators hpromised h
    succeeded := hkept.succeeded.step hkept.records hstep horderly
    covered := hkept.covered.step hkept.records hkept.succeeded hstep horderly
    signals := signalsOk_step hkept hpromised h }

theorem Kept.stagesOk (hkept : s.Kept creator) : s.StagesOk := by
  have hview {pid : Int} {child : Child} (hchild : s.children pid = some child) :
      s.ledger.child pid = some child.view := view_of_child hchild
  have howned {a : Place} {pid : Int} (ha : s.ledger.pidAt a = some pid) :
      s.ledger.childAt a = some pid := by
    refine Ledger.childAt_eq_some.mpr ⟨ha, ?_⟩
    rintro rfl
    exact hkept.succeeded a ha
  constructor
  · intro pid child hchild hreaped
    obtain ⟨a, ha⟩ := hkept.covered pid child.view (hview hchild) hreaped
    refine ⟨a, ha, fun b hb => ?_⟩
    exact hkept.children.exclusive b a pid (howned hb) (howned ha)
  · intro pid child hchild hreaped a ha
    obtain ⟨-, view, hfound, -, halive⟩ := hkept.children.owned a pid (howned ha)
    obtain rfl := Option.some.inj ((hview hchild).symm.trans hfound)
    rw [show child.reaped = false from halive] at hreaped
    cases hreaped
  · intro pid child hchild
    exact (hkept.signals pid child hchild).1

theorem init_kept : Manager.init.Kept creator where
  records := init_recordsOk
  children := init_childrenOk
  used := init_exclusive
  creators := fun _ h => absurd rfl h
  succeeded := by
    intro a
    cases a <;> exact nofun
  covered := nofun
  signals := nofun

end Manager

/-- The records whose children the worker has waited for, and those it has deleted. -/
structure Burials where
  reaped : List Ptr
  deleted : List Ptr

def Burials.start : Burials := ⟨[], []⟩

def Burials.after (s : Manager) (e : Event) (h : Burials) : Burials :=
  match e, s.worker with
  | .workerWait ret, .killed _ p =>
      if (s.heap p).map Channel.pid = some ret then { h with reaped := p :: h.reaped } else h
  | .workerDelete, .unlinked _ p => { h with deleted := p :: h.deleted }
  | _, _ => h

/-- No record is deleted twice, or before its child has been waited for. -/
def Burials.Ok (h : Burials) : Prop := h.deleted.Nodup ∧ ∀ p ∈ h.deleted, p ∈ h.reaped

/-- What is deleted stays so; what the worker is going to delete, it has waited for. -/
structure BurialsOk (s : Manager) (h : Burials) : Prop where
  freed : ∀ p ∈ h.deleted, s.ledger.record p = none ∧ p < s.nextPtr
  waited : ∀ p, s.ledger.holding .worker = .spent p → p ∈ h.reaped
  ok : h.Ok

private theorem freed_step {h : Burials} (hburials : BurialsOk s h) (hstep : step s e = some s')
    {p : Ptr} (hp : p ∈ h.deleted) : s'.ledger.record p = none ∧ p < s'.nextPtr := by
  obtain ⟨hnone, hlt⟩ := hburials.freed p hp
  refine ⟨?_, Nat.lt_of_lt_of_le hlt (nextPtr_step hstep)⟩
  rcases record_step hstep hlt with hkept | ⟨-, -, hfreed⟩
  · rw [hkept, hnone]
  · exact hfreed

private theorem spent_kept (hwait : ∀ ret, e ≠ .workerWait ret) (h : step s e = some s')
    {p : Ptr} (hp : s'.ledger.holding .worker = .spent p) : s.ledger.holding .worker = .spent p := by
  have hmove := worker_move h
  change s'.worker.holding = .spent p at hp
  change s.worker.holding = .spent p
  generalize s'.worker = w' at hmove hp
  generalize s.worker = w at hmove ⊢
  cases hmove with
  | stays _ => exact hp
  | waits => exact absurd rfl (hwait _)
  | unlinks => exact hp
  | _ => cases hp

theorem burialsOk_step {h : Burials} (hrec : s.ledger.RecordsOk) (hburials : BurialsOk s h)
    (hstep : step s e = some s') : BurialsOk s' (h.after s e) := by
  have hfreed (p : Ptr) (hp : p ∈ h.deleted) : s'.ledger.record p = none ∧ p < s'.nextPtr :=
    freed_step hburials hstep hp
  cases e with
  | workerWait ret =>
      obtain ⟨chanId, q, c, r, hkilled, hheap, -, hpc⟩ := Manager.workerWait_cases hstep
      have hpid : s.ledger.record q = some c.pid := Manager.record_of_heap hheap
      have hafter : h.after s (.workerWait ret) =
          if s.ledger.record q = some ret then { h with reaped := q :: h.reaped } else h := by
        simp only [Burials.after, hkilled]
        rfl
      rw [hafter, hpid]
      obtain ⟨rfl, rfl⟩ | ⟨hret, rfl⟩ := hpc
      · rw [if_pos rfl]
        refine ⟨hfreed, fun p hp => ?_, hburials.ok.1, fun p hp => ?_⟩
        · obtain rfl : q = p := Holding.spent.inj hp
          exact List.mem_cons_self ..
        · exact List.mem_cons_of_mem _ (hburials.ok.2 p hp)
      · rw [if_neg fun heq => hret (Option.some.inj heq).symm]
        exact ⟨hfreed, nofun, hburials.ok⟩
  | workerDelete =>
      obtain ⟨chanId, q, hunlinked, rfl⟩ := Manager.workerDelete_cases hstep
      have hheld : s.ledger.holding .worker = .spent q := Manager.holding_worker hunlinked
      have hallocated : s.ledger.record q ≠ none :=
        hrec.allocated .worker q (congrArg Holding.ptr hheld)
      have hafter : h.after s .workerDelete = { h with deleted := q :: h.deleted } := by
        simp only [Burials.after, hunlinked]
      have hnew : q ∉ h.deleted := fun hq => hallocated (hburials.freed q hq).1
      have hrecord := congrArg Ledger.record (Manager.ledger_setHeap { s with worker := .idle } q none)
      rw [hafter]
      refine ⟨fun p hp => ?_, nofun, List.nodup_cons.mpr ⟨hnew, hburials.ok.1⟩, fun p hp => ?_⟩
      · obtain rfl | hp := List.mem_cons.mp hp
        · rw [hrecord]
          exact ⟨Function.update_self .., hrec.lt_next hallocated⟩
        · exact hfreed p hp
      · obtain rfl | hp := List.mem_cons.mp hp
        · exact hburials.waited p hheld
        · exact hburials.ok.2 p hp
  | _ => exact ⟨hfreed, fun p hp => hburials.waited p (spent_kept (by simp) hstep hp), hburials.ok⟩

/-- In every run in which one thread creates the channels, every `fork` succeeds and `waitpid` returns
what it waits for: each child is in exactly one place until it is reaped and in none behind that, is
signalled at most once and before it is reaped, and no record is deleted twice or before its child has
been waited for. -/
theorem children_conserved (creator : Nat) (events : List Event)
    (hpromised : StepsMeet step (Manager.Promised creator) Manager.init events) :
    StatesHold (recorded step Burials.after) (fun x => x.1.StagesOk ∧ x.2.Ok)
        (Manager.init, Burials.start) events ∧
      StepsMeet step Manager.KillsFresh Manager.init events := by
  constructor
  · have hstates : StatesHold (recorded step Burials.after)
        (fun x => x.1.Kept creator ∧ BurialsOk x.1 x.2) (Manager.init, Burials.start) events := by
      apply hpromised.recorded.statesHold
      · rintro ⟨s, h⟩ e ⟨s', h'⟩ ⟨hkept, hburials⟩ hC hrecorded
        obtain ⟨hstep, rfl⟩ := recorded_eq_some.mp hrecorded
        exact ⟨hkept.step hC hstep, burialsOk_step hkept.records hburials hstep⟩
      · exact ⟨Manager.init_kept, nofun, nofun, List.nodup_nil, nofun⟩
    exact hstates.mono fun x hx => ⟨hx.1.stagesOk, hx.2.ok⟩
  · exact hpromised.imp (fun s e s' hs hC h => hs.step hC h)
      (fun s e s' hs _ _ => Manager.killsFresh hs e) Manager.init_kept

/-- A channel is created and deleted, with a request for a channel that does not exist and one too
many for this channel. -/
private def burial : List Event :=
  [.createCheck 0 "x" {}, .createFork 0 5, .createBuild 0 true, .createInsert 0, .delChannel "y",
    .workerPop, .workerTake, .delChannel "x", .delChannel "x", .workerPop, .workerTake, .workerKill]

theorem burial_conserved :
    StatesHold (recorded step Burials.after) (fun x => x.1.StagesOk ∧ x.2.Ok)
        (Manager.init, Burials.start) (burial ++ [.workerWait 5] ++ [.workerUnlink] ++ [.workerDelete]) ∧
      StepsMeet step Manager.KillsFresh Manager.init
        (burial ++ [.workerWait 5] ++ [.workerUnlink] ++ [.workerDelete]) := by
  apply children_conserved 0
  have hburial : StepsMeet step (Manager.Promised 0) Manager.init burial := by
    apply Machine.stepsMeet_of_forall
    intro s e he
    simp only [burial, List.mem_cons, List.not_mem_nil, or_false] at he
    rcases he with rfl | rfl | rfl | rfl | rfl | rfl | rfl | rfl | rfl | rfl | rfl | rfl
    case inr.inl => exact (by decide : (5 : Int) ≠ -1)
    all_goals trivial
  have hwaits := hburial.concat (e := .workerWait 5) rfl (by
    intro chanId p c hkilled hheap
    cases hkilled
    cases hheap
    rfl)
  have hunlink (s : Manager) : s.Promised 0 .workerUnlink := trivial
  have hdelete (s : Manager) : s.Promised 0 .workerDelete := trivial
  exact (hwaits.concat rfl (hunlink _)).concat rfl (hdelete _)

end GMProxy.TdChannel
