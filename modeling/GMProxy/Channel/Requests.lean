import GMProxy.Channel.Frame
import GMProxy.Library.Machine

/-!
# Requests to delete a channel

A request carries a name. It waits in a list that later requests overtake, and the worker applies it
to the channel that the table has under the name by then. What a request removes has the name it was
issued for; it is younger than the request only if it was inserted while the request was waiting.
-/

namespace GMProxy.TdChannel

open Machine

/-- An insertion into the table: the `Channel`, its name and pid, how many calls of `delChannel` had
returned, and which of them were still to be executed. -/
structure Insertion where
  name : String
  lChannel : Ptr
  pid : Option Int
  calls : Nat
  pending : List Nat

/-- The `Channel` that the worker takes out of the table on account of a call. -/
structure Removal where
  call : Nat
  name : String
  lChannel : Ptr

/-- The pid that the worker passes to `kill` on account of a call. -/
structure Kill where
  call : Nat
  lChannel : Ptr
  pid : Option Int

/-- The calls of `delChannel` in their order, those whose requests are in `delChanList`, the one the
worker has taken up last, and what was inserted, removed and signalled. -/
structure Requests where
  calls : List String
  queue : List Nat
  current : Nat
  inserted : List Insertion
  removed : List Removal
  killed : List Kill

namespace Requests

def start : Requests := ⟨[], [], 0, [], [], []⟩

/-- The calls that the worker has still to execute. -/
def pending (h : Requests) (worker : WorkerPc) : List Nat :=
  match worker with
  | .popped _ => h.current :: h.queue
  | _ => h.queue

def issue (h : Requests) (channle : String) : Requests :=
  { h with calls := h.calls ++ [channle], queue := h.calls.length :: h.queue }

def pop (h : Requests) : Requests :=
  { h with queue := h.queue.tail, current := h.queue.headD h.current }

def insert (h : Requests) (s : Manager) (channel : String) (p : Ptr) : Requests :=
  { h with inserted :=
      ⟨channel, p, s.ledger.record p, h.calls.length, h.pending s.worker⟩ :: h.inserted }

def take (h : Requests) (chanId : String) (p : Ptr) : Requests :=
  { h with removed := ⟨h.current, chanId, p⟩ :: h.removed }

def kill (h : Requests) (s : Manager) (p : Ptr) : Requests :=
  { h with killed := ⟨h.current, p, s.ledger.record p⟩ :: h.killed }

def after (s : Manager) (e : Event) (h : Requests) : Requests :=
  match e, s.worker with
  | .delChannel channle, _ => h.issue channle
  | .workerPop, _ => if s.delChanList = [] then h else h.pop
  | .createInsert t, _ =>
      match s.threads t with
      | .createBuilt channel p => h.insert s channel p
      | _ => h
  | .workerTake, .popped chanId =>
      match (s.chanMap.subscript chanId).1 with
      | some p => h.take chanId p
      | none => h
  | .workerKill, .taken _ p => h.kill s p
  | _, _ => h

/-- A call removes at most one channel. -/
def RemovesOnce (h : Requests) : Prop := (h.removed.map Removal.call).Nodup

/-- What a call removes was inserted under its name, and not after the call had returned unless the
request was still to be executed at the insertion. -/
def RemovesPending (h : Requests) : Prop :=
  ∀ r ∈ h.removed, h.calls[r.call]? = some r.name ∧
    (∃ i ∈ h.inserted, i.lChannel = r.lChannel ∧ i.name = r.name) ∧
    ∀ i ∈ h.inserted, i.lChannel = r.lChannel → r.call < i.calls → r.call ∈ i.pending

/-- A call signals only the pid recorded in a channel that it removes. -/
def KillsRemoved (h : Requests) : Prop :=
  ∀ k ∈ h.killed, (∃ name, ⟨k.call, name, k.lChannel⟩ ∈ h.removed) ∧
    ∀ i ∈ h.inserted, i.lChannel = k.lChannel → i.pid = k.pid

/-- No call removes a channel that was inserted after it had returned. -/
def RemovesOlder (h : Requests) : Prop :=
  ∀ r ∈ h.removed, ∀ i ∈ h.inserted, i.lChannel = r.lChannel → i.calls ≤ r.call

end Requests

variable {s s' : Manager} {e : Event} {h : Requests}

/-- The history follows `delChanList`; a call is waiting, or executed, and only once. -/
structure QueueOk (s : Manager) (h : Requests) : Prop where
  names : List.Forall₂ (fun n name => h.calls[n]? = some name) h.queue s.delChanList
  popped : ∀ chanId, s.worker = .popped chanId → h.calls[h.current]? = some chanId
  issued : ∀ r ∈ h.removed, h.calls[r.call]? = some r.name
  once : (h.removed.map Removal.call ++ h.pending s.worker).Nodup
  aged : ∀ i ∈ h.inserted, i.calls ≤ h.calls.length ∧
    ∀ n ∈ h.pending s.worker, n < i.calls → n ∈ i.pending

private theorem QueueOk.call_lt (hq : QueueOk s h) {n : Nat}
    (hn : n ∈ h.removed.map Removal.call ++ h.pending s.worker) : n < h.calls.length := by
  have hlt {name : String} (hname : h.calls[n]? = some name) : n < h.calls.length :=
    (List.getElem?_eq_some_iff.mp hname).1
  have hqueue (hn : n ∈ h.queue) : n < h.calls.length := by
    obtain ⟨i, hi, rfl⟩ := List.getElem_of_mem hn
    have hname := (List.forall₂_iff_get.mp hq.names).2 i hi
      (by rw [← hq.names.length_eq]; exact hi)
    exact hlt hname
  rcases List.mem_append.mp hn with hn | hn
  · obtain ⟨r, hr, rfl⟩ := List.mem_map.mp hn
    exact hlt (hq.issued r hr)
  · unfold Requests.pending at hn
    split at hn
    case h_1 chanId hpopped =>
      obtain rfl | hn := List.mem_cons.mp hn
      · exact hlt (hq.popped chanId hpopped)
      · exact hqueue hn
    case h_2 => exact hqueue hn

private theorem pending_issue (channle : String) (worker : WorkerPc) :
    ((h.issue channle).pending worker).Perm (h.calls.length :: h.pending worker) := by
  cases worker with
  | popped chanId => exact List.Perm.swap ..
  | _ => exact List.Perm.refl _

private theorem QueueOk.issue (hq : QueueOk s h) (channle : String) :
    QueueOk { s with delChanList := channle :: s.delChanList } (h.issue channle) := by
  have hkept {n : Nat} {name : String} (hname : h.calls[n]? = some name) :
      (h.calls ++ [channle])[n]? = some name := by
    rw [List.getElem?_append_left (List.getElem?_eq_some_iff.mp hname).1, hname]
  have hperm := pending_issue (h := h) channle s.worker
  refine ⟨?_, fun chanId hpopped => hkept (hq.popped chanId hpopped),
    fun r hr => hkept (hq.issued r hr), ?_, fun i hi => ?_⟩
  · refine List.Forall₂.cons ?_ (hq.names.imp fun _ _ => hkept)
    exact List.getElem?_concat_length
  · have hnew : h.calls.length ∉ h.removed.map Removal.call ++ h.pending s.worker :=
      fun hmem => Nat.lt_irrefl _ (hq.call_lt hmem)
    have hnodup := List.nodup_cons.mpr ⟨hnew, hq.once⟩
    exact ((hperm.append_left _).trans List.perm_middle).nodup_iff.mpr hnodup
  · obtain ⟨hle, hpending⟩ := hq.aged i hi
    refine ⟨?_, fun n hn hlt => ?_⟩
    · refine Nat.le_trans hle ?_
      simp [Requests.issue]
    · obtain rfl | hn := List.mem_cons.mp (hperm.mem_iff.mp hn)
      · omega
      · exact hpending n hn hlt

private theorem QueueOk.pop (hq : QueueOk s h) (hidle : s.worker = .idle) {chanId : String}
    {rest : List String} (hlist : s.delChanList = chanId :: rest) {worker : WorkerPc}
    (hworker : worker = .idle ∨ worker = .popped chanId) :
    QueueOk { s with delChanList := rest, worker := worker } h.pop := by
  have hnames := hq.names
  have honce := hq.once
  have haged := hq.aged
  simp only [hidle, Requests.pending] at honce haged
  rw [hlist] at hnames
  obtain ⟨n, ns, hname, hns, hqueue⟩ := List.forall₂_cons_right_iff.mp hnames
  have hpending : h.pop.pending worker = ns ∨ h.pop.pending worker = n :: ns := by
    rw [Requests.pop, hqueue]
    rcases hworker with rfl | rfl
    · exact Or.inl rfl
    · exact Or.inr rfl
  have hsub : (h.pop.pending worker).Sublist h.queue := by
    rw [hqueue]
    rcases hpending with heq | heq
    · rw [heq]
      exact List.sublist_cons_self n ns
    · rw [heq]
  refine ⟨?_, fun chanId' hpopped => ?_, hq.issued, honce.sublist (hsub.append_left _), fun i hi => ?_⟩
  · rw [Requests.pop, hqueue]
    exact hns
  · have hcurrent : h.pop.current = n := by
      rw [Requests.pop, hqueue]
      rfl
    rw [hcurrent]
    rcases hworker with rfl | rfl
    · cases hpopped
    · cases hpopped
      exact hname
  · exact ⟨(haged i hi).1, fun m hm => (haged i hi).2 m (hsub.subset hm)⟩

private theorem QueueOk.insert (hq : QueueOk s h) (channel : String) (p : Ptr) :
    QueueOk s (h.insert s channel p) := by
  refine ⟨hq.names, hq.popped, hq.issued, hq.once, fun i hi => ?_⟩
  obtain rfl | hi := List.mem_cons.mp hi
  · exact ⟨Nat.le_refl _, fun n hn _ => hn⟩
  · exact hq.aged i hi

private theorem QueueOk.take (hq : QueueOk s h) {chanId : String} (hpopped : s.worker = .popped chanId)
    (p : Ptr) : QueueOk { s with worker := .taken chanId p } (h.take chanId p) := by
  have honce := hq.once
  have haged := hq.aged
  simp only [hpopped, Requests.pending] at honce haged
  refine ⟨hq.names, nofun, fun r hr => ?_, ?_, fun i hi => ?_⟩
  · obtain rfl | hr := List.mem_cons.mp hr
    · exact hq.popped chanId hpopped
    · exact hq.issued r hr
  · exact List.perm_middle.nodup_iff.mp honce
  · exact ⟨(haged i hi).1, fun n hn => (haged i hi).2 n (List.mem_cons_of_mem _ hn)⟩

private theorem QueueOk.drop (hq : QueueOk s h) (hlist : s'.delChanList = s.delChanList)
    (hworker : ∀ chanId, s'.worker ≠ .popped chanId) : QueueOk s' h := by
  have hpending : h.pending s'.worker = h.queue := by
    unfold Requests.pending
    split
    case h_1 chanId heq => exact absurd heq (hworker chanId)
    case h_2 => rfl
  have hsub : (h.pending s'.worker).Sublist (h.pending s.worker) := by
    rw [hpending]
    unfold Requests.pending
    split
    case h_1 => exact List.sublist_cons_self ..
    case h_2 => exact List.Sublist.refl _
  refine ⟨?_, fun chanId heq => absurd heq (hworker chanId), hq.issued,
    hq.once.sublist (hsub.append_left _), fun i hi => ?_⟩
  · rw [hlist]
    exact hq.names
  · exact ⟨(hq.aged i hi).1, fun n hn => (hq.aged i hi).2 n (hsub.subset hn)⟩

private theorem QueueOk.quiet (hq : QueueOk s h) (hlist : s'.delChanList = s.delChanList)
    (hworker : s'.worker = s.worker) : QueueOk s' h := by
  obtain ⟨hnames, hpopped, hissued, honce, haged⟩ := hq
  rw [← hlist] at hnames
  rw [← hworker] at honce
  simp only [← hworker] at hpopped haged
  exact ⟨hnames, hpopped, hissued, honce, haged⟩

private theorem take_after {chanId : String} {p : Ptr} (hpopped : s.worker = .popped chanId)
    (hfound : s.chanMap.lookup chanId = some (some p)) :
    h.after s .workerTake = h.take chanId p := by
  simp only [Requests.after, hpopped, ChanMap.subscript_eq_some.mpr hfound]

private theorem take_after_none {chanId : String} (hpopped : s.worker = .popped chanId)
    (hnone : (s.chanMap.subscript chanId).1 = none) : h.after s .workerTake = h := by
  simp only [Requests.after, hpopped, hnone]

private theorem kill_after {chanId : String} {p : Ptr} (htaken : s.worker = .taken chanId p) :
    h.after s .workerKill = h.kill s p := by
  simp only [Requests.after, htaken]

private theorem insert_after {t : Nat} {channel : String} {p : Ptr}
    (hbuilt : s.threads t = .createBuilt channel p) :
    h.after s (.createInsert t) = h.insert s channel p := by
  simp only [Requests.after, hbuilt]

private theorem queueOk_step (hq : QueueOk s h) (hstep : step s e = some s') :
    QueueOk s' (h.after s e) := by
  have hframe := step_frame hstep
  cases e with
  | delChannel channle =>
      obtain ⟨-, rfl⟩ := Manager.delChannel_cases hstep
      exact hq.issue channle
  | workerPop =>
      obtain ⟨-, hidle, ⟨hempty, rfl⟩ | ⟨chanId, rest, hlist, hpop⟩⟩ := Manager.workerPop_cases hstep
      · have hafter : h.after s' .workerPop = h := if_pos hempty
        rw [hafter]
        exact hq
      · have hafter : h.after s .workerPop = h.pop := if_neg (by simp [hlist])
        rw [hafter]
        obtain ⟨-, rfl⟩ | ⟨-, rfl⟩ := hpop
        · exact (hq.pop hidle hlist (Or.inl rfl)).quiet rfl hidle
        · exact hq.pop hidle hlist (Or.inr rfl)
  | createInsert t =>
      obtain ⟨-, channel, p, hbuilt, rfl⟩ := Manager.createInsert_cases hstep
      rw [insert_after hbuilt]
      exact (hq.insert channel p).quiet rfl rfl
  | workerTake =>
      obtain ⟨-, chanId, hpopped, ⟨p, hfound, rfl⟩ | ⟨hnone, rfl⟩⟩ := Manager.workerTake_cases hstep
      · rw [take_after hpopped hfound]
        exact (hq.take hpopped p).quiet rfl rfl
      · rw [take_after_none hpopped hnone]
        exact hq.drop rfl nofun
  | workerKill =>
      obtain ⟨chanId, p, c, htaken, -, rfl⟩ := Manager.workerKill_cases hstep
      have hdrop : QueueOk { s.kill c.pid with worker := .killed chanId p } h := hq.drop rfl nofun
      rw [kill_after htaken]
      exact ⟨hdrop.names, hdrop.popped, hdrop.issued, hdrop.once, hdrop.aged⟩
  | workerWait ret =>
      obtain ⟨chanId, p, c, r, -, -, -, ⟨-, rfl⟩ | ⟨-, rfl⟩⟩ := Manager.workerWait_cases hstep
      all_goals exact hq.drop (hframe.requests rfl) nofun
  | workerUnlink =>
      obtain ⟨chanId, p, c, -, -, rfl⟩ := Manager.workerUnlink_cases hstep
      exact hq.drop rfl nofun
  | workerDelete =>
      obtain ⟨chanId, p, -, rfl⟩ := Manager.workerDelete_cases hstep
      exact hq.drop rfl nofun
  | _ => exact hq.quiet (hframe.requests rfl) (hframe.worker rfl)

/-- The history follows the table: each channel was inserted under its name, once, and keeps its pid
until it is deleted. -/
structure InstancesOk (s : Manager) (h : Requests) : Prop where
  entries : ∀ key p, s.chanMap.lookup key = some (some p) →
    ∃ i ∈ h.inserted, i.lChannel = p ∧ i.name = key
  unheld : ∀ i ∈ h.inserted, i.lChannel < s.nextPtr ∧
    ∀ t, (s.threads t).holding.ptr ≠ some i.lChannel
  pids : ∀ i ∈ h.inserted,
    s.ledger.record i.lChannel = none ∨ s.ledger.record i.lChannel = i.pid
  taken : ∀ chanId p, s.worker = .taken chanId p → ⟨h.current, chanId, p⟩ ∈ h.removed

private theorem holding_ptr_step (hstep : step s e = some s') {t : Nat} {p : Ptr}
    (ht : (s'.threads t).holding.ptr = some p) :
    (s.threads t).holding.ptr = some p ∨ p = s.nextPtr := by
  rcases holding_step hstep rfl with hold | hnothing | ⟨u, name, fpid, -, hforked⟩ |
    ⟨u, made, name, param, fpid, -, -, hbuilt⟩
  · rw [hold]
    exact Or.inl ht
  · rw [hnothing] at ht
    cases ht
  · rw [hforked] at ht
    cases ht
  · rw [hbuilt] at ht
    exact Or.inr (Option.some.inj ht).symm

private theorem inserted_after (hother : ∀ t, e ≠ .createInsert t) :
    (h.after s e).inserted = h.inserted := by
  unfold Requests.after
  split
  case h_1 => rfl
  case h_2 => split <;> rfl
  case h_3 => exact absurd rfl (hother _)
  case h_4 => split <;> rfl
  all_goals rfl

private theorem mem_inserted_after {i : Insertion} (hi : i ∈ h.inserted) :
    i ∈ (h.after s e).inserted := by
  by_cases hinsert : ∃ t, e = .createInsert t
  · obtain ⟨t, rfl⟩ := hinsert
    simp only [Requests.after]
    split
    case h_1 => exact List.mem_cons_of_mem _ hi
    case h_2 => exact hi
  · rw [inserted_after fun t heq => hinsert ⟨t, heq⟩]
    exact hi

private theorem entries_step (hok : InstancesOk s h) (hstep : step s e = some s') (key : String) (p : Ptr)
    (hp : s'.chanMap.lookup key = some (some p)) :
    ∃ i ∈ (h.after s e).inserted, i.lChannel = p ∧ i.name = key := by
  rcases entry_step hstep hp with hold | ⟨t, rfl, hbuilt⟩
  · obtain ⟨i, hi, hthis⟩ := hok.entries key p hold
    exact ⟨i, mem_inserted_after hi, hthis⟩
  · rw [insert_after hbuilt]
    exact ⟨_, List.mem_cons_self .., rfl, rfl⟩

private theorem instances_step (hok : InstancesOk s h) (hstep : step s e = some s') {i : Insertion}
    (hi : i ∈ h.inserted) :
    (i.lChannel < s'.nextPtr ∧ ∀ t, (s'.threads t).holding.ptr ≠ some i.lChannel) ∧
      (s'.ledger.record i.lChannel = none ∨ s'.ledger.record i.lChannel = i.pid) := by
  obtain ⟨hlt, hunheld⟩ := hok.unheld i hi
  refine ⟨⟨Nat.lt_of_lt_of_le hlt (nextPtr_step hstep), fun t ht => ?_⟩, ?_⟩
  · rcases holding_ptr_step hstep ht with hheld | hnew
    · exact hunheld t hheld
    · exact Nat.ne_of_lt hlt hnew
  · rcases record_step hstep hlt with hkept | ⟨-, -, hfreed⟩
    · rw [hkept]
      exact hok.pids i hi
    · exact Or.inl hfreed

private theorem new_instance (hrec : s.ledger.RecordsOk) {t : Nat} {channel : String} {p : Ptr}
    (hbuilt : s.threads t = .createBuilt channel p) (hstep : step s (.createInsert t) = some s') :
    (p < s'.nextPtr ∧ ∀ u, (s'.threads u).holding.ptr ≠ some p) ∧
      s'.ledger.record p = s.ledger.record p := by
  have hheld : (s.ledger.holding (.thread t)).ptr = some p :=
    congrArg Holding.ptr (Manager.holding_thread hbuilt)
  have hlt := hrec.lt_next (hrec.allocated _ p hheld)
  obtain ⟨-, channel', p', hbuilt', rfl⟩ := Manager.createInsert_cases hstep
  refine ⟨⟨hlt, fun u hu => ?_⟩, rfl⟩
  by_cases hut : u = t
  · rw [hut, Manager.setThread_self] at hu
    cases hu
  · have hother : (s.ledger.holding (.thread u)).ptr = some p := by
      rw [← hu]
      exact congrArg (fun pc => (Pc.holding pc).ptr) (Function.update_of_ne hut ..).symm
    have hboth := hrec.exclusive _ _ p hother hheld
    exact hut (Place.thread.inj hboth)

private theorem taken_step (hok : InstancesOk s h) (hstep : step s e = some s') (chanId : String)
    (p : Ptr) (htaken : s'.worker = .taken chanId p) :
    ⟨(h.after s e).current, chanId, p⟩ ∈ (h.after s e).removed := by
  have hframe := step_frame hstep
  cases e with
  | workerTake =>
      obtain ⟨-, name, hpopped, ⟨q, hfound, rfl⟩ | ⟨-, rfl⟩⟩ := Manager.workerTake_cases hstep
      · cases htaken
        rw [take_after hpopped hfound]
        exact List.mem_cons_self ..
      · cases htaken
  | workerPop | workerKill | workerWait ret | workerUnlink | workerDelete =>
      have hmove := worker_move hstep
      rw [htaken] at hmove
      generalize s.worker = w at hmove
      cases hmove with
      | stays hworker => cases hworker
  | createInsert t =>
      obtain ⟨-, channel, q, hbuilt, rfl⟩ := Manager.createInsert_cases hstep
      rw [insert_after hbuilt]
      exact hok.taken chanId p htaken
  | _ => exact hok.taken chanId p ((hframe.worker rfl).symm.trans htaken)

private theorem instancesOk_step (hrec : s.ledger.RecordsOk) (hok : InstancesOk s h)
    (hstep : step s e = some s') : InstancesOk s' (h.after s e) := by
  have hinstances (i : Insertion) (hi : i ∈ (h.after s e).inserted) :
      (i.lChannel < s'.nextPtr ∧ ∀ t, (s'.threads t).holding.ptr ≠ some i.lChannel) ∧
        (s'.ledger.record i.lChannel = none ∨ s'.ledger.record i.lChannel = i.pid) := by
    by_cases hinsert : ∃ t, e = .createInsert t
    · obtain ⟨t, rfl⟩ := hinsert
      obtain ⟨-, channel, p, hbuilt, -⟩ := Manager.createInsert_cases hstep
      rw [insert_after hbuilt] at hi
      obtain rfl | hi := List.mem_cons.mp hi
      · obtain ⟨hunheld, hrecord⟩ := new_instance hrec hbuilt hstep
        exact ⟨hunheld, Or.inr hrecord⟩
      · exact instances_step hok hstep hi
    · rw [inserted_after fun t heq => hinsert ⟨t, heq⟩] at hi
      exact instances_step hok hstep hi
  exact ⟨entries_step hok hstep, fun i hi => (hinstances i hi).1, fun i hi => (hinstances i hi).2,
    taken_step hok hstep⟩

/-- What the calls have done so far. -/
structure EffectsOk (h : Requests) : Prop where
  pending : h.RemovesPending
  killed : h.KillsRemoved

private theorem EffectsOk.insert (heffects : EffectsOk h) (hinstances : InstancesOk s h) {t : Nat}
    {channel : String} {p : Ptr} (hbuilt : s.threads t = .createBuilt channel p) :
    EffectsOk (h.insert s channel p) := by
  have hnew (r : Removal) (hr : r ∈ h.removed) : p ≠ r.lChannel := by
    obtain ⟨-, ⟨i, hi, hthis, -⟩, -⟩ := heffects.pending r hr
    have hunheld := (hinstances.unheld i hi).2 t
    rw [hbuilt, hthis] at hunheld
    exact fun hp => hunheld (congrArg some hp)
  constructor
  · intro r hr
    obtain ⟨hname, ⟨i, hi, hthis⟩, hall⟩ := heffects.pending r hr
    refine ⟨hname, ⟨i, List.mem_cons_of_mem _ hi, hthis⟩, fun j hj hptr => ?_⟩
    obtain rfl | hj := List.mem_cons.mp hj
    · exact absurd hptr (hnew r hr)
    · exact hall j hj hptr
  · intro k hk
    obtain ⟨⟨name, hr⟩, hall⟩ := heffects.killed k hk
    refine ⟨⟨name, hr⟩, fun j hj hptr => ?_⟩
    obtain rfl | hj := List.mem_cons.mp hj
    · exact absurd hptr (hnew _ hr)
    · exact hall j hj hptr

private theorem EffectsOk.issue (heffects : EffectsOk h) (channle : String) :
    EffectsOk (h.issue channle) := by
  refine ⟨fun r hr => ?_, heffects.killed⟩
  obtain ⟨hname, hrest⟩ := heffects.pending r hr
  refine ⟨?_, hrest⟩
  exact (List.getElem?_append_left (List.getElem?_eq_some_iff.mp hname).1).trans hname

private theorem EffectsOk.take (heffects : EffectsOk h) (hqueue : QueueOk s h)
    (hinstances : InstancesOk s h) {chanId : String} {p : Ptr} (hpopped : s.worker = .popped chanId)
    (hfound : s.chanMap.lookup chanId = some (some p)) : EffectsOk (h.take chanId p) := by
  constructor
  · intro r hr
    obtain rfl | hr := List.mem_cons.mp hr
    · refine ⟨hqueue.popped chanId hpopped, hinstances.entries chanId p hfound, fun i hi _ hlt => ?_⟩
      apply (hqueue.aged i hi).2 _ _ hlt
      rw [hpopped]
      exact List.mem_cons_self ..
    · exact heffects.pending r hr
  · intro k hk
    obtain ⟨⟨name, hr⟩, hall⟩ := heffects.killed k hk
    exact ⟨⟨name, List.mem_cons_of_mem _ hr⟩, hall⟩

private theorem EffectsOk.kill (heffects : EffectsOk h) (hinstances : InstancesOk s h)
    {chanId : String} {p : Ptr} (htaken : s.worker = .taken chanId p)
    (hallocated : s.ledger.record p ≠ none) : EffectsOk (h.kill s p) := by
  refine ⟨heffects.pending, fun k hk => ?_⟩
  obtain rfl | hk := List.mem_cons.mp hk
  · refine ⟨⟨chanId, hinstances.taken chanId p htaken⟩, fun i hi hptr => ?_⟩
    have hpid := hinstances.pids i hi
    rw [hptr] at hpid
    exact (hpid.resolve_left hallocated).symm
  · exact heffects.killed k hk

private theorem effectsOk_step (hqueue : QueueOk s h) (hinstances : InstancesOk s h)
    (heffects : EffectsOk h) (hstep : step s e = some s') : EffectsOk (h.after s e) := by
  cases e with
  | delChannel channle => exact heffects.issue channle
  | workerPop =>
      by_cases hempty : s.delChanList = []
      · have hafter : h.after s .workerPop = h := if_pos hempty
        rw [hafter]
        exact heffects
      · have hafter : h.after s .workerPop = h.pop := if_neg hempty
        rw [hafter]
        exact ⟨heffects.pending, heffects.killed⟩
  | createInsert t =>
      obtain ⟨-, channel, p, hbuilt, -⟩ := Manager.createInsert_cases hstep
      rw [insert_after hbuilt]
      exact heffects.insert hinstances hbuilt
  | workerTake =>
      obtain ⟨-, chanId, hpopped, ⟨p, hfound, -⟩ | ⟨hnone, -⟩⟩ := Manager.workerTake_cases hstep
      · rw [take_after hpopped hfound]
        exact heffects.take hqueue hinstances hpopped hfound
      · rw [take_after_none hpopped hnone]
        exact heffects
  | workerKill =>
      obtain ⟨chanId, p, c, htaken, hheap, -⟩ := Manager.workerKill_cases hstep
      have hpid : s.ledger.record p = some c.pid := Manager.record_of_heap hheap
      rw [kill_after htaken]
      exact heffects.kill hinstances htaken (by rw [hpid]; exact Option.some_ne_none _)
  | _ => exact heffects

/-- In every state of every run: each call of `delChannel` has removed at most one channel, one that
was inserted under the name of the call, and has signalled only the pid recorded in it; if the channel
was inserted after the call had returned, the request was still waiting at the insertion. -/
theorem requests_remove_pending (events : List Event) :
    StatesHold (recorded step Requests.after)
      (fun x => x.2.RemovesOnce ∧ x.2.RemovesPending ∧ x.2.KillsRemoved)
      (Manager.init, Requests.start) events := by
  have hinvariant : StatesHold (recorded step Requests.after)
      (fun x => x.1.ledger.RecordsOk ∧ QueueOk x.1 x.2 ∧ InstancesOk x.1 x.2 ∧ EffectsOk x.2)
      (Manager.init, Requests.start) events := by
    apply Machine.statesHold_of_invariant
    · rintro ⟨s, h⟩ e ⟨s', h'⟩ ⟨hrec, hqueue, hinstances, heffects⟩ hrecorded
      obtain ⟨hstep, rfl⟩ := recorded_eq_some.mp hrecorded
      exact ⟨recordsOk_step hrec hstep, queueOk_step hqueue hstep,
        instancesOk_step hrec hinstances hstep,
        effectsOk_step hqueue hinstances heffects hstep⟩
    · exact ⟨init_recordsOk, ⟨.nil, nofun, nofun, List.nodup_nil, nofun⟩, ⟨nofun, nofun, nofun, nofun⟩,
        nofun, nofun⟩
  apply hinvariant.mono
  intro x hx
  obtain ⟨-, hqueue, -, heffects⟩ := hx
  exact ⟨(List.nodup_append.mp hqueue.once).1, heffects.pending, heffects.killed⟩

/-- Two calls for one channel: the first request that is executed removes it, the second one removes
the channel created after it. -/
theorem repeatedDeletion_hits_younger :
    ¬ StatesHold (recorded step Requests.after) (fun x => x.2.RemovesOlder)
      (Manager.init, Requests.start) [.createCheck 0 "x" {}, .createFork 0 5, .createBuild 0 true,
        .createInsert 0, .delChannel "x", .delChannel "x", .workerPop, .workerTake, .workerKill,
        .workerWait 5, .workerUnlink, .workerDelete, .createCheck 0 "x" {}, .createFork 0 6,
        .createBuild 0 true, .createInsert 0, .workerPop, .workerTake] := by
  intro h
  have holder := h.last rfl ⟨0, "x", 1⟩ (List.mem_cons_self ..) _ (List.mem_cons_self ..) rfl
  exact absurd holder (by decide)

end GMProxy.TdChannel
