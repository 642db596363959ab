import Mathlib.Data.List.Count
import Mathlib.Data.List.Nodup
import GMProxy.Library.Machine

/-!
# The frame queue

`Queue` between the receiver and the sender. `push` reads `mQueAccess` before it takes the mutex;
`pop`, `clear` and the rest of `push` are one critical section each. A packet that `push` does not
queue is not freed either.
-/

namespace GMProxy.TdUtil

open Machine

/-- `Packet`; `data` is null, or the buffer that the `n`-th allocation gave. -/
structure Packet where
  data : Option Nat
  size : UInt32
deriving DecidableEq, Repr

/-- `Packet::clear`, with the buffer that it frees. -/
def Packet.clear (p : Packet) : Packet × Option Nat :=
  match p.data with
  | some buffer => (⟨none, 0⟩, some buffer)
  | none => (p, none)

/-- The heap buffers of some packets. -/
def buffers (packets : List Packet) : List Nat := packets.filterMap Packet.data

def queueLimit : Nat := 128

/-- `Queue`, with the packet of a `push` that has passed its test of `mQueAccess`. Histories: the
buffers made so far, the packets of the pushes that have returned, the packets that were queued and
those that `pop` returned, and the buffers that `clear` freed. -/
structure Queue where
  packetQue : List Packet
  mQueAccess : Bool
  pushing : Option Packet
  allocated : Nat
  handedOver : List Packet
  accepted : List Packet
  returned : List Packet
  freed : List Nat

namespace Queue

/-- A queue as the constructor leaves it. -/
def new : Queue := ⟨[], true, none, 0, [], [], [], []⟩

variable (q : Queue)

def isAccess : Bool := q.mQueAccess

def setAccess (status : Bool) : Queue := { q with mQueAccess := status }

/-- `push` up to the mutex, for a null pointer or a new buffer. -/
def push (packet : Packet) : Option Queue :=
  if q.pushing = none ∧ (packet.data = none ∨ packet.data = some q.allocated) then
    let q := { q with allocated := q.allocated + 1 }
    if !q.isAccess then some { q with handedOver := q.handedOver ++ [packet] }
    else some { q with pushing := some packet }
  else none

/-- The critical section of `push`. -/
def enqueue : Option Queue :=
  match q.pushing with
  | none => none
  | some packet =>
      let q := { q with pushing := none, handedOver := q.handedOver ++ [packet] }
      if q.packetQue.length < queueLimit then
        some { q with
          packetQue := q.packetQue ++ [packet]
          accepted := q.accepted ++ [packet] }
      else some q

/-- An empty queue gives `Packet(nullptr, 0)`, which is no packet that was pushed. -/
def pop : Packet × Queue :=
  match q.packetQue with
  | [] => (⟨none, 0⟩, q)
  | packet :: rest => (packet, { q with packetQue := rest, returned := q.returned ++ [packet] })

def clear : Queue :=
  { q with
    packetQue := []
    freed := q.freed ++ q.packetQue.filterMap fun frame => frame.clear.2 }

end Queue

/-- `push` and `enqueue` are steps of the receiver, `pop` is one of the sender. -/
inductive QueueEvent where
  | push (packet : Packet)
  | enqueue
  | pop
  | clear
  | setAccess (status : Bool)

def queueStep (q : Queue) : QueueEvent → Option Queue
  | .push packet => q.push packet
  | .enqueue => q.enqueue
  | .pop => some q.pop.2
  | .clear => some q.clear
  | .setAccess status => some (q.setAccess status)

/-- How often a buffer is queued, returned by a `pop` or freed. -/
def Queue.places (q : Queue) (buffer : Nat) : Nat :=
  (buffers q.packetQue).count buffer + (buffers q.returned).count buffer + q.freed.count buffer

/-- Packets come out in the order in which they were accepted, no buffer comes out twice, and the
queue keeps its limit. -/
structure Ordered (q : Queue) : Prop where
  order : q.returned.Sublist q.accepted
  once : (buffers q.returned).Nodup
  limit : q.packetQue.length ≤ queueLimit

/-- Every buffer that was handed over is in exactly one place. -/
def Conserved (q : Queue) : Prop := ∀ buffer ∈ buffers q.handedOver, q.places buffer = 1

/-- The step drops no buffer: a `push` with one finds access open, and then room. -/
def DropsNothing (q : Queue) : QueueEvent → Prop
  | .push packet => packet.data = none ∨ q.isAccess = true
  | .enqueue => ∀ packet, q.pushing = some packet →
      packet.data = none ∨ q.packetQue.length < queueLimit
  | .pop | .clear | .setAccess _ => True

variable {q q' : Queue}

theorem Packet.clear_freed (p : Packet) : p.clear.2 = p.data := by
  obtain ⟨data, size⟩ := p
  cases data <;> rfl

theorem Queue.clear_freed (q : Queue) : q.clear.freed = q.freed ++ buffers q.packetQue := by
  have hclear : (fun frame : Packet => frame.clear.2) = Packet.data := funext Packet.clear_freed
  rw [Queue.clear, hclear, buffers]

theorem buffers_append (xs ys : List Packet) : buffers (xs ++ ys) = buffers xs ++ buffers ys :=
  List.filterMap_append

/-- A packet that the receiver is about to queue, or the new one of a `push`. -/
theorem Queue.push_cases {packet : Packet} (h : q.push packet = some q') :
    q.pushing = none ∧ (packet.data = none ∨ packet.data = some q.allocated) ∧
      ((q.isAccess = false ∧ q' = { q with
          allocated := q.allocated + 1, handedOver := q.handedOver ++ [packet] }) ∨
        (q.isAccess = true ∧ q' = { q with
          allocated := q.allocated + 1, pushing := some packet })) := by
  rw [Queue.push] at h
  split at h
  case isTrue hnew =>
    refine ⟨hnew.1, hnew.2, ?_⟩
    cases hopen : q.isAccess with
    | false =>
        left
        rw [if_pos (by simpa [Queue.isAccess] using hopen)] at h
        exact ⟨rfl, (Option.some.inj h).symm⟩
    | true =>
        right
        rw [if_neg (by simpa [Queue.isAccess] using hopen)] at h
        exact ⟨rfl, (Option.some.inj h).symm⟩
  case isFalse => cases h

theorem Queue.enqueue_cases (h : q.enqueue = some q') :
    ∃ packet, q.pushing = some packet ∧
      ((q.packetQue.length < queueLimit ∧ q' = { q with
          pushing := none, handedOver := q.handedOver ++ [packet],
          packetQue := q.packetQue ++ [packet], accepted := q.accepted ++ [packet] }) ∨
        (¬ q.packetQue.length < queueLimit ∧ q' = { q with
          pushing := none, handedOver := q.handedOver ++ [packet] })) := by
  rw [Queue.enqueue] at h
  split at h
  case h_1 => cases h
  case h_2 packet hpushing =>
    refine ⟨packet, hpushing, ?_⟩
    by_cases hroom : q.packetQue.length < queueLimit
    · left
      rw [if_pos hroom] at h
      exact ⟨hroom, (Option.some.inj h).symm⟩
    · right
      rw [if_neg hroom] at h
      exact ⟨hroom, (Option.some.inj h).symm⟩

/-- What holds in every state of a run. `gone` are the accepted packets that are no longer queued;
the buffers accepted or about to be are distinct. -/
structure Tracked (q : Queue) : Prop where
  gone : ∃ gone, q.accepted = gone ++ q.packetQue ∧ q.returned.Sublist gone ∧
    ∀ buffer, (buffers gone).count buffer =
      (buffers q.returned).count buffer + q.freed.count buffer
  distinct : (buffers (q.accepted ++ q.pushing.toList)).Nodup
  made : ∀ buffer ∈ buffers (q.accepted ++ q.pushing.toList), buffer < q.allocated
  limit : q.packetQue.length ≤ queueLimit

theorem tracked_new : Tracked Queue.new where
  gone := ⟨[], rfl, List.Sublist.refl [], fun _ => rfl⟩
  distinct := List.nodup_nil
  made := fun _ h => nomatch h
  limit := Nat.zero_le _

theorem Tracked.push {packet : Packet} (h : Tracked q) (hpush : q.push packet = some q') :
    Tracked q' := by
  obtain ⟨hidle, hnew, ⟨-, rfl⟩ | ⟨-, rfl⟩⟩ := Queue.push_cases hpush
  · exact ⟨h.gone, h.distinct, fun b hb => Nat.lt_succ_of_lt (h.made b hb), h.limit⟩
  · have hdistinct := h.distinct
    have hmade := h.made
    rw [hidle, Option.toList_none, List.append_nil] at hdistinct hmade
    refine ⟨h.gone, ?_, ?_, h.limit⟩
    · rw [Option.toList_some, buffers_append]
      rcases hnew with hnull | hbuffer
      · have hnone : buffers [packet] = [] := by simp [buffers, hnull]
        rw [hnone, List.append_nil]
        exact hdistinct
      · have hone : buffers [packet] = [q.allocated] := by simp [buffers, hbuffer]
        rw [hone]
        apply List.Nodup.append hdistinct (List.nodup_singleton _)
        intro b hb hlast
        have hlt := hmade b hb
        rw [List.mem_singleton.mp hlast] at hlt
        exact Nat.lt_irrefl _ hlt
    · intro b hb
      rw [Option.toList_some, buffers_append, List.mem_append] at hb
      rcases hb with hb | hb
      · exact Nat.lt_succ_of_lt (hmade b hb)
      · rcases hnew with hnull | hbuffer
        · simp [buffers, hnull] at hb
        · have heq : b = q.allocated := by simpa [buffers, hbuffer] using hb
          rw [heq]
          exact Nat.lt_succ_self _

theorem Tracked.enqueue (h : Tracked q) (henqueue : q.enqueue = some q') : Tracked q' := by
  obtain ⟨gone, haccepted, hsub, hcount⟩ := h.gone
  obtain ⟨packet, hpushing, ⟨hroom, rfl⟩ | ⟨-, rfl⟩⟩ := Queue.enqueue_cases henqueue
  · have hsame : (q.accepted ++ [packet]) ++ (none : Option Packet).toList =
        q.accepted ++ q.pushing.toList := by
      rw [hpushing, Option.toList_none, Option.toList_some, List.append_nil]
    refine ⟨⟨gone, ?_, hsub, hcount⟩, ?_, ?_, ?_⟩
    · rw [haccepted, List.append_assoc]
    · exact hsame ▸ h.distinct
    · exact hsame ▸ h.made
    · rw [List.length_append, List.length_singleton]
      omega
  · have hle : (buffers (q.accepted ++ (none : Option Packet).toList)).Sublist
        (buffers (q.accepted ++ q.pushing.toList)) := by
      rw [Option.toList_none]
      exact List.Sublist.filterMap _ (List.Sublist.append_left (List.nil_sublist _) _)
    exact ⟨⟨gone, haccepted, hsub, hcount⟩, h.distinct.sublist hle,
      fun b hb => h.made b (hle.subset hb), h.limit⟩

theorem Queue.pop_cases (q : Queue) :
    (q.packetQue = [] ∧ q.pop.2 = q) ∨
      ∃ packet rest, q.packetQue = packet :: rest ∧
        q.pop.2 = { q with packetQue := rest, returned := q.returned ++ [packet] } := by
  rw [Queue.pop]
  split
  case h_1 hque => exact Or.inl ⟨hque, rfl⟩
  case h_2 packet rest hque => exact Or.inr ⟨packet, rest, hque, rfl⟩

theorem Tracked.pop (h : Tracked q) : Tracked q.pop.2 := by
  obtain ⟨gone, haccepted, hsub, hcount⟩ := h.gone
  rcases q.pop_cases with ⟨-, hsame⟩ | ⟨packet, rest, hque, hpop⟩
  · rw [hsame]
    exact h
  · rw [hpop]
    refine ⟨⟨gone ++ [packet], ?_, hsub.append (List.Sublist.refl _), ?_⟩, h.distinct, h.made, ?_⟩
    · rw [haccepted, hque, List.append_assoc, List.singleton_append]
    · intro b
      simp only [buffers_append, List.count_append, hcount]
      omega
    · have hlimit := h.limit
      rw [hque, List.length_cons] at hlimit
      exact Nat.le_of_succ_le hlimit

theorem Tracked.clear (h : Tracked q) : Tracked q.clear := by
  obtain ⟨gone, haccepted, hsub, hcount⟩ := h.gone
  refine ⟨⟨q.accepted, (List.append_nil _).symm, ?_, ?_⟩, h.distinct, h.made, Nat.zero_le _⟩
  · rw [haccepted]
    exact hsub.trans (List.sublist_append_left _ _)
  · intro b
    rw [Queue.clear_freed, List.count_append, haccepted, buffers_append, List.count_append, hcount]
    exact Nat.add_assoc _ _ _

theorem tracked_step (e : QueueEvent) (h : Tracked q) (hstep : queueStep q e = some q') :
    Tracked q' := by
  cases e with
  | push packet => exact h.push hstep
  | enqueue => exact h.enqueue hstep
  | pop => exact Option.some.inj hstep ▸ h.pop
  | clear => exact Option.some.inj hstep ▸ h.clear
  | setAccess status =>
      obtain rfl := Option.some.inj hstep
      exact ⟨h.gone, h.distinct, h.made, h.limit⟩

theorem Tracked.ordered (h : Tracked q) : Ordered q := by
  obtain ⟨gone, haccepted, hsub, -⟩ := h.gone
  have horder : q.returned.Sublist q.accepted := by
    rw [haccepted]
    exact hsub.trans (List.sublist_append_left _ _)
  have hdistinct := h.distinct
  rw [buffers_append] at hdistinct
  exact ⟨horder, (List.nodup_append.mp hdistinct).1.sublist (horder.filterMap _), h.limit⟩

/-- A buffer is in as many places as it was accepted. -/
theorem Tracked.places_eq (h : Tracked q) (buffer : Nat) :
    q.places buffer = (buffers q.accepted).count buffer := by
  obtain ⟨gone, haccepted, -, hcount⟩ := h.gone
  rw [Queue.places, haccepted, buffers_append, List.count_append, hcount]
  omega

theorem Tracked.conserved_iff (h : Tracked q) :
    Conserved q ↔ ∀ buffer ∈ buffers q.handedOver, buffer ∈ buffers q.accepted := by
  have hdistinct := h.distinct
  rw [buffers_append] at hdistinct
  have hnodup := (List.nodup_append.mp hdistinct).1
  refine forall_congr' fun b => forall_congr' fun _ => ?_
  rw [h.places_eq, hnodup.count]
  simp

private theorem conserved_pushes (h : Tracked q) (hq : Conserved q) (packet : Packet)
    (hnew : packet.data = none ∨ ∀ b, packet.data = some b → b ∉ buffers q.accepted) :
    (∀ b ∈ buffers (q.handedOver ++ [packet]), b ∈ buffers q.accepted) ↔ packet.data = none := by
  have hold := h.conserved_iff.mp hq
  constructor
  · intro hall
    rcases hnew with hnull | hnew
    · exact hnull
    · cases hdata : packet.data with
      | none => rfl
      | some b =>
          refine absurd (hall b ?_) (hnew b hdata)
          rw [buffers_append, List.mem_append]
          right
          simp [buffers, hdata]
  · intro hnull b hb
    have hnone : buffers [packet] = [] := by simp [buffers, hnull]
    rw [buffers_append, hnone, List.append_nil] at hb
    exact hold b hb

theorem conserved_push_iff {packet : Packet} (h : Tracked q) (hq : Conserved q)
    (hpush : q.push packet = some q') :
    Conserved q' ↔ packet.data = none ∨ q.isAccess = true := by
  rw [(h.push hpush).conserved_iff]
  obtain ⟨-, hnew, ⟨hclosed, rfl⟩ | ⟨hopen, rfl⟩⟩ := Queue.push_cases hpush
  · have hfresh : packet.data = none ∨ ∀ b, packet.data = some b → b ∉ buffers q.accepted := by
      refine hnew.imp id fun hbuffer b hb hmem => ?_
      have hlt := h.made b (by
        rw [buffers_append]
        exact List.mem_append_left _ hmem)
      obtain rfl := Option.some.inj (hbuffer.symm.trans hb)
      exact Nat.lt_irrefl _ hlt
    rw [conserved_pushes h hq packet hfresh, hclosed]
    simp
  · exact iff_of_true (h.conserved_iff.mp hq) (Or.inr hopen)

theorem conserved_enqueue_iff {packet : Packet} (h : Tracked q) (hq : Conserved q)
    (hpushing : q.pushing = some packet) (henqueue : q.enqueue = some q') :
    Conserved q' ↔ packet.data = none ∨ q.packetQue.length < queueLimit := by
  rw [(h.enqueue henqueue).conserved_iff]
  have hdistinct := h.distinct
  rw [hpushing, Option.toList_some, buffers_append] at hdistinct
  obtain ⟨packet', hpushing', ⟨hroom, rfl⟩ | ⟨hfull, rfl⟩⟩ := Queue.enqueue_cases henqueue
  · obtain rfl := Option.some.inj (hpushing.symm.trans hpushing')
    refine iff_of_true (fun b hb => ?_) (Or.inr hroom)
    rw [buffers_append, List.mem_append] at hb ⊢
    exact hb.imp_left (h.conserved_iff.mp hq b)
  · obtain rfl := Option.some.inj (hpushing.symm.trans hpushing')
    rw [conserved_pushes h hq packet, or_iff_left hfull]
    refine Or.inr fun b hb hmem => ?_
    exact (List.nodup_append.mp hdistinct).2.2 b hmem b (by simp [buffers, hb]) rfl

/-- A step keeps the buffers in exactly one place each, precisely when it drops none. -/
theorem conserved_step_iff (e : QueueEvent) (h : Tracked q) (hq : Conserved q)
    (hstep : queueStep q e = some q') : Conserved q' ↔ DropsNothing q e := by
  have htracked := tracked_step e h hstep
  cases e with
  | push packet => exact conserved_push_iff h hq hstep
  | enqueue =>
      obtain ⟨packet, hpushing, -⟩ := Queue.enqueue_cases hstep
      rw [conserved_enqueue_iff h hq hpushing hstep]
      constructor
      · intro hdrop packet' hpushing'
        obtain rfl := Option.some.inj (hpushing.symm.trans hpushing')
        exact hdrop
      · exact fun hdrop => hdrop packet hpushing
  | pop =>
      obtain rfl := Option.some.inj hstep
      refine iff_of_true (htracked.conserved_iff.mpr ?_) trivial
      rcases q.pop_cases with ⟨-, hsame⟩ | ⟨packet, rest, -, hpop⟩
      · rw [hsame]
        exact h.conserved_iff.mp hq
      · rw [hpop]
        exact h.conserved_iff.mp hq
  | clear =>
      obtain rfl := Option.some.inj hstep
      exact iff_of_true (htracked.conserved_iff.mpr (h.conserved_iff.mp hq)) trivial
  | setAccess status =>
      obtain rfl := Option.some.inj hstep
      exact iff_of_true (htracked.conserved_iff.mpr (h.conserved_iff.mp hq)) trivial

theorem conserved_new : Conserved Queue.new := fun _ h => nomatch h

theorem ordered_run (events : List QueueEvent) :
    StatesHold queueStep Ordered Queue.new events := by
  have htracked : StatesHold queueStep Tracked Queue.new events :=
    statesHold_of_invariant (fun _ e _ h hstep => tracked_step e h hstep) tracked_new
  exact htracked.mono fun _ h => h.ordered

theorem conserved_run_iff (events : List QueueEvent) :
    StatesHold queueStep Conserved Queue.new events ↔
      StepsMeet queueStep DropsNothing Queue.new events :=
  statesHold_iff_steps_of_invariant (fun _ e _ h hstep => tracked_step e h hstep)
    (fun _ e _ h hq hstep => conserved_step_iff e h hq hstep) tracked_new conserved_new

/-- In every run packets come out in order, no buffer twice, and at most 128 packets are queued.
Every buffer stays in exactly one place precisely when each `push` finds access open and each
queueing finds room. -/
theorem queue_conserved_iff (events : List QueueEvent) :
    StatesHold queueStep Ordered Queue.new events ∧
      (StatesHold queueStep Conserved Queue.new events ↔
        StepsMeet queueStep DropsNothing Queue.new events) :=
  ⟨ordered_run events, conserved_run_iff events⟩

instance decidableDropsNothing (q : Queue) : (e : QueueEvent) → Decidable (DropsNothing q e)
  | .push packet => inferInstanceAs (Decidable (packet.data = none ∨ q.isAccess = true))
  | .enqueue => inferInstanceAs (Decidable (∀ packet, q.pushing = some packet →
      packet.data = none ∨ q.packetQue.length < queueLimit))
  | .pop | .clear | .setAccess _ => inferInstanceAs (Decidable True)

/-- Frames that arrive while the sender takes none. -/
private def backlog (frames : Nat) : List QueueEvent :=
  (List.range frames).flatMap fun n => [.push ⟨some n, 1⟩, .enqueue]

/-- The 129th frame of a backlog is neither queued nor freed. -/
theorem backlog_lost :
    ¬ ∀ events, StatesHold queueStep (fun q => Ordered q ∧ Conserved q) Queue.new events := by
  intro h
  have hconserved := (h (backlog 129)).mono (Q := Conserved) fun _ hq => hq.2
  rw [conserved_run_iff] at hconserved
  revert hconserved
  decide +kernel

end GMProxy.TdUtil
