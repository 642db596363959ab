import GMProxy.Fifo.FifoMsg
import GMProxy.Library.Machine

/-!
# Delivery of commands over the FIFO

The manager writes, the channel process waits, in any order. A read takes up to two kilobytes where
a message has 1028 bytes, so a second unread message is torn and the first one is thrown away with
it.
-/

namespace GMProxy.TdUtil

open Machine

inductive FifoEvent where
  | onceWrite (opened : Int) (cmd : FIFOCmdType) (data : FifoData)
  | wait (opened : Int)

/-- Both ends and the FIFO, with the messages written and the messages for which `Wait` returned 0
so far. -/
structure FifoSystem where
  fifo : List UInt8
  manager : FifoMsgSession
  channel : FifoMsgSession
  written : List FifoMsg
  delivered : List FifoMsg

def fifoStep (s : FifoSystem) : FifoEvent → Option FifoSystem
  | .onceWrite opened cmd data =>
      let (manager, fifo, ret) := s.manager.onceWrite opened s.fifo cmd data
      some { s with
        manager := manager
        fifo := fifo
        written := if ret = 0 then s.written ++ [FifoMsg.make cmd data] else s.written }
  | .wait opened =>
      let (channel, fifo, ret) := s.channel.wait opened s.fifo
      some { s with
        channel := channel
        fifo := fifo
        delivered := if ret = 0 then s.delivered ++ [channel.getFifoMsg] else s.delivered }

def fifoStart (manager channel : FifoMsgSession) : FifoSystem := ⟨[], manager, channel, [], []⟩

/-- The delivered messages are the first of the written ones, and the bytes of the others are what
is left in the FIFO. -/
def InStep (s : FifoSystem) : Prop :=
  ∃ unread : List FifoMsg, s.written = s.delivered ++ unread ∧
    s.fifo = unread.flatMap FifoMsg.encode

/-- Whether `Wait` comes to its `read`. -/
def FifoMsgSession.Reads (s : FifoMsgSession) (opened : Int) : Prop :=
  s.mFifoName ≠ "" ∧ (s.isOpenR = true ∨ opened ≠ -1)

/-- A `Wait` that reads finds at most one message. -/
def AtMostOneUnread (s : FifoSystem) : FifoEvent → Prop
  | .onceWrite .. => True
  | .wait opened => s.channel.Reads opened → s.fifo.length ≤ sizeofFifoMsg

variable {s s' : FifoSystem} {opened : Int} {unread : List FifoMsg}

/-- Once the FIFO is empty every command has been delivered. -/
theorem InStep.delivered_all (h : InStep s) (hempty : s.fifo = []) : s.delivered = s.written := by
  obtain ⟨unread, hwritten, hfifo⟩ := h
  cases unread with
  | nil => rw [hwritten, List.append_nil]
  | cons msg unread =>
      rw [hempty, List.flatMap_cons] at hfifo
      exact absurd (List.append_eq_nil_iff.mp hfifo.symm).1 msg.encode_ne_nil

private theorem unread_length (unread : List FifoMsg) :
    (unread.flatMap FifoMsg.encode).length = sizeofFifoMsg * unread.length := by
  induction unread with
  | nil => rfl
  | cons msg unread ih =>
      rw [List.flatMap_cons, List.length_append, msg.encode_length, ih, List.length_cons,
        Nat.mul_succ, Nat.add_comm]

theorem onceWrite_cases (s : FifoMsgSession) (opened : Int) (fifo : List UInt8) (cmd : FIFOCmdType)
    (data : FifoData) :
    (∃ t, s.onceWrite opened fifo cmd data = (t, fifo, -1)) ∨
      ∃ t, s.onceWrite opened fifo cmd data = (t, fifo ++ (FifoMsg.make cmd data).encode, 0) := by
  by_cases hfailed : ¬ s.isOpenW = true ∧ (if s.isOpenW then s.fd else opened) = -1
  · exact Or.inl ⟨_, if_pos hfailed⟩
  · exact Or.inr ⟨_, if_neg hfailed⟩

theorem wait_of_not_reads {s : FifoMsgSession} (h : ¬ s.Reads opened) (fifo : List UInt8) :
    ∃ t, s.wait opened fifo = (t, fifo, -1) := by
  by_cases hname : s.mFifoName = ""
  · exact ⟨s, if_pos hname⟩
  · have hclosed : ¬ s.isOpenR = true := fun hopen => h ⟨hname, Or.inl hopen⟩
    have hfailed : opened = -1 := Decidable.by_contra fun hopened => h ⟨hname, Or.inr hopened⟩
    have hfd : ¬ s.isOpenR = true ∧ (if s.isOpenR then s.fd else opened) = -1 :=
      ⟨hclosed, by rw [if_neg hclosed, hfailed]⟩
    exact ⟨_, (if_neg hname).trans (if_pos hfd)⟩

theorem wait_of_reads {s : FifoMsgSession} (h : s.Reads opened) (fifo : List UInt8) :
    ∃ t : FifoMsgSession, s.wait opened fifo =
      ((t.read fifo).1, (t.read fifo).2, if (t.read fifo).1.nread = sizeofFifoMsg then 0 else -1) := by
  obtain ⟨hname, hopen⟩ := h
  have hfd : ¬ (¬ s.isOpenR = true ∧ (if s.isOpenR then s.fd else opened) = -1) := by
    rintro ⟨hclosed, hfd⟩
    rw [if_neg hclosed] at hfd
    rcases hopen with hopen | hopen
    · exact hclosed hopen
    · exact hopen hfd
  exact ⟨_, (if_neg hname).trans (if_neg hfd)⟩

/-- The system after a read by the channel's end `t`. -/
def FifoSystem.afterRead (s : FifoSystem) (t : FifoMsgSession) : FifoSystem :=
  { s with
    channel := (t.read s.fifo).1
    fifo := (t.read s.fifo).2
    delivered :=
      if (t.read s.fifo).1.nread = sizeofFifoMsg then s.delivered ++ [(t.read s.fifo).1.getFifoMsg]
      else s.delivered }

private theorem afterRead_none (t : FifoMsgSession) (h : InStep s) (hempty : s.fifo = []) :
    InStep (s.afterRead t) := by
  refine ⟨[], ?_, ?_⟩
  · have hnread : (t.read s.fifo).1.nread ≠ sizeofFifoMsg := by
      rw [hempty]
      exact Nat.zero_ne_add_one 1027
    rw [List.append_nil, FifoSystem.afterRead]
    simp only [if_neg hnread, h.delivered_all hempty]
  · rw [FifoSystem.afterRead, hempty]
    rfl

private theorem afterRead_one (t : FifoMsgSession) {msg : FifoMsg}
    (hwritten : s.written = s.delivered ++ [msg]) (hfifo : s.fifo = msg.encode) :
    InStep (s.afterRead t) := by
  obtain ⟨hmsg, hrest, hnread⟩ := t.read_encode msg
  refine ⟨[], ?_, ?_⟩
  · simp only [FifoSystem.afterRead, hfifo, hnread, if_true, hmsg, List.append_nil]
    exact hwritten
  · rw [FifoSystem.afterRead, hfifo]
    exact hrest

private theorem afterRead_more (t : FifoMsgSession) (h : InStep s)
    (hmore : sizeofFifoMsg < s.fifo.length) : ¬ InStep (s.afterRead t) := by
  obtain ⟨unread, hwritten, hfifo⟩ := h
  have hlen := unread_length unread
  rw [← hfifo] at hlen
  have hnread : (t.read s.fifo).1.nread ≠ sizeofFifoMsg := by
    simp only [FifoMsgSession.read, List.length_take, sizeofBuff, sizeofFifoMsg] at *
    omega
  rintro ⟨left, hleft, hbytes⟩
  simp only [FifoSystem.afterRead, if_neg hnread, hwritten] at hleft hbytes
  have hsame := List.append_cancel_left hleft
  have hshort := congrArg List.length hbytes
  rw [← hsame, ← hfifo] at hshort
  simp only [FifoMsgSession.read, List.length_drop, sizeofBuff, sizeofFifoMsg] at *
  omega

private theorem afterRead_iff (t : FifoMsgSession) (h : InStep s) :
    InStep (s.afterRead t) ↔ s.fifo.length ≤ sizeofFifoMsg := by
  by_cases hmore : sizeofFifoMsg < s.fifo.length
  · exact iff_of_false (afterRead_more t h hmore) (by omega)
  · refine iff_of_true ?_ (by omega)
    obtain ⟨unread, hwritten, hfifo⟩ := h
    have hlen := unread_length unread
    rw [← hfifo] at hlen
    cases unread with
    | nil => exact afterRead_none t ⟨[], hwritten, hfifo⟩ hfifo
    | cons msg unread =>
        have hnil : unread = [] := by
          apply List.length_eq_zero_iff.mp
          simp only [List.length_cons, sizeofFifoMsg] at *
          omega
        rw [hnil] at hwritten hfifo
        rw [List.flatMap_cons, List.flatMap_nil, List.append_nil] at hfifo
        exact afterRead_one t hwritten hfifo

/-- A step keeps the two ends in step exactly when it is no `Wait` that finds two messages. -/
theorem inStep_step_iff (e : FifoEvent) (h : InStep s) (hstep : fifoStep s e = some s') :
    InStep s' ↔ AtMostOneUnread s e := by
  cases e with
  | onceWrite opened cmd data =>
      refine iff_of_true ?_ trivial
      obtain ⟨unread, hwritten, hfifo⟩ := h
      rcases onceWrite_cases s.manager opened s.fifo cmd data with ⟨t, ht⟩ | ⟨t, ht⟩
      · simp only [fifoStep, ht, Option.some.injEq] at hstep
        subst hstep
        exact ⟨unread, hwritten, hfifo⟩
      · simp only [fifoStep, ht, Option.some.injEq] at hstep
        subst hstep
        refine ⟨unread ++ [FifoMsg.make cmd data], ?_, ?_⟩
        · simp only [if_true, hwritten, List.append_assoc]
        · simp only [hfifo, List.flatMap_append, List.flatMap_cons, List.flatMap_nil,
            List.append_nil]
  | wait opened =>
      by_cases hreads : s.channel.Reads opened
      · obtain ⟨t, ht⟩ := wait_of_reads hreads s.fifo
        have hs' : s' = s.afterRead t := by
          simp only [fifoStep, ht, Option.some.injEq] at hstep
          rw [← hstep, FifoSystem.afterRead]
          split <;> rfl
        rw [hs', afterRead_iff t h]
        exact ⟨fun hone _ => hone, fun hmeets => hmeets hreads⟩
      · obtain ⟨t, ht⟩ := wait_of_not_reads hreads s.fifo
        simp only [fifoStep, ht, Option.some.injEq] at hstep
        subst hstep
        exact iff_of_true h fun hin => absurd hin hreads

theorem inStep_start (manager channel : FifoMsgSession) : InStep (fifoStart manager channel) :=
  ⟨[], rfl, rfl⟩

/-- The two ends stay in step along a run exactly when every `Wait` of it that reads finds at most
one message. -/
theorem fifo_inStep_iff (manager channel : FifoMsgSession) (events : List FifoEvent) :
    StatesHold fifoStep InStep (fifoStart manager channel) events ↔
      StepsMeet fifoStep AtMostOneUnread (fifoStart manager channel) events :=
  statesHold_iff_steps (fun _ e _ h hstep => inStep_step_iff e h hstep) (inStep_start _ _)

private def newSession : FifoMsgSession :=
  ⟨"/tmp/channel", -1, List.replicate sizeofBuff 0, 0, false, false, List.length_replicate⟩

private def command : FifoEvent := .onceWrite 3 .modifyCodecParam ⟨[1, 2, 3, 4], by decide⟩

/-- Of two commands that are written before the channel waits none is delivered. -/
theorem twoCommands_lost :
    ¬ StatesHold fifoStep InStep (fifoStart newSession newSession) [command, command, .wait 4] := by
  intro h
  obtain ⟨-, h1⟩ := h
  obtain ⟨-, h2⟩ := h1 _ rfl
  obtain ⟨hboth, h3⟩ := h2 _ rfl
  have hlast := StatesHold.head (h3 _ rfl)
  have hone := (inStep_step_iff (.wait 4) hboth rfl).mp hlast ⟨by decide, Or.inr (by decide)⟩
  have hlen : ∀ fifo : List UInt8, fifo = (FifoMsg.make .modifyCodecParam ⟨[1, 2, 3, 4], by decide⟩).encode ++
      (FifoMsg.make .modifyCodecParam ⟨[1, 2, 3, 4], by decide⟩).encode → ¬ fifo.length ≤ sizeofFifoMsg := by
    rintro fifo rfl
    rw [List.length_append, FifoMsg.encode_length]
    decide
  exact hlen _ rfl hone

end GMProxy.TdUtil
