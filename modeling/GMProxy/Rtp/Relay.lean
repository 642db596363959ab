import GMProxy.Rtp.FrameQueue
import GMProxy.Rtp.Reassembly
import GMProxy.Rtp.SendLoop

/-!
# The relay of a channel

`recvLoopThread` and `sendLoopThread` around the queue between them, in any order of their steps.
What the codec makes of a frame is an input.
-/

namespace GMProxy.TdUtil

def Packet.empty (p : Packet) : Bool := p.size = 0

/-- The packets of all pushes so far. -/
def Queue.pushed (q : Queue) : List Packet := q.handedOver ++ q.pushing.toList

/-- A queue that nobody has closed or cleared. -/
structure Queue.Flows (q : Queue) : Prop where
  access : q.isAccess = true
  accepted : q.accepted = q.returned ++ q.packetQue
  handedOver : q.accepted.Sublist q.handedOver

/-- No packet of a push was dropped. -/
def Queue.Whole (q : Queue) : Prop := q.accepted = q.handedOver

variable {q q' : Queue} {packet : Packet}

theorem Queue.Flows.push (h : q.Flows) (hpush : q.push packet = some q') :
    q'.Flows ∧ q'.pushed = q.pushed ++ [packet] ∧ q'.allocated = q.allocated + 1 ∧
      q'.returned = q.returned ∧ (q'.Whole ↔ q.Whole) := by
  obtain ⟨hidle, -, ⟨hclosed, -⟩ | ⟨-, rfl⟩⟩ := Queue.push_cases hpush
  · rw [h.access] at hclosed
    cases hclosed
  · refine ⟨⟨h.access, h.accepted, h.handedOver⟩, ?_, rfl, rfl, Iff.rfl⟩
    simp [Queue.pushed, hidle]

theorem Queue.Flows.enqueue (h : q.Flows) (henqueue : q.enqueue = some q') :
    q'.Flows ∧ q'.pushed = q.pushed ∧ q'.allocated = q.allocated ∧ q'.returned = q.returned ∧
      (q'.Whole ↔ q.Whole ∧ q.packetQue.length < queueLimit) := by
  obtain ⟨packet, hpushing, ⟨hroom, rfl⟩ | ⟨hfull, rfl⟩⟩ := Queue.enqueue_cases henqueue
  · refine ⟨⟨h.access, ?_, ?_⟩, ?_, rfl, rfl, ?_⟩
    · simp [h.accepted]
    · exact h.handedOver.append (List.Sublist.refl _)
    · simp [Queue.pushed, hpushing]
    · simp [Queue.Whole, hroom]
  · refine ⟨⟨h.access, h.accepted, ?_⟩, ?_, rfl, rfl, ?_⟩
    · exact h.handedOver.trans (List.sublist_append_left _ _)
    · simp [Queue.pushed, hpushing]
    · refine iff_of_false ?_ fun hboth => hfull hboth.2
      intro hwhole
      have hlength := congrArg List.length (show q.accepted = q.handedOver ++ [packet] from hwhole)
      have hle := h.handedOver.length_le
      rw [List.length_append, List.length_singleton] at hlength
      omega

/-- `pop` gives the packet that has waited longest, or an empty one that was not pushed. -/
theorem Queue.Flows.pop (h : q.Flows) :
    q.pop.2.Flows ∧ q.pop.2.pushed = q.pushed ∧ q.pop.2.allocated = q.allocated ∧
      (q.pop.2.Whole ↔ q.Whole) ∧
      ((q.pop.1.empty = true ∧ q.pop.2.returned = q.returned) ∨
        (q.pop.1 ∈ q.accepted ∧ q.pop.2.returned = q.returned ++ [q.pop.1])) := by
  cases hque : q.packetQue with
  | nil =>
      have hpop : q.pop = (⟨none, 0⟩, q) := by
        rw [Queue.pop, hque]
      rw [hpop]
      exact ⟨h, rfl, rfl, Iff.rfl, Or.inl ⟨rfl, rfl⟩⟩
  | cons packet rest =>
      have hpop : q.pop =
          (packet, { q with packetQue := rest, returned := q.returned ++ [packet] }) := by
        rw [Queue.pop, hque]
      rw [hpop]
      have haccepted : q.accepted = q.returned ++ packet :: rest := by
        rw [h.accepted, hque]
      refine ⟨⟨h.access, ?_, h.handedOver⟩, rfl, rfl, Iff.rfl, Or.inr ⟨?_, rfl⟩⟩
      · simp [haccepted]
      · simp [haccepted]

end GMProxy.TdUtil

namespace GMProxy.TdRtp

open TdPs TdUtil Transducer Machine CMemory

/-- What a call of `parsingPs` gives back within `fuel` passes of its loop. -/
def parsed (call : ParseCall) (fuel : Nat) : Option PsResult :=
  match parsingPs call.srcdata call.length fuel with
  | .leave (.returned result) | .leave (.error result) => some result
  | _ => none

/-- The frame that `recvLoopThread` pushes for a result: the first `oLen` bytes behind `obuff`. -/
def frameOf (result : PsResult) : Option (List UInt8) :=
  if 0 < result.outlength then some ((result.outData.getD []).take result.outlength.toNat) else none

/-- The length of the frame is below the size limit, while the loop runs and when it ends. -/
private def Below : WhileLoop.Pass DemuxState PsEnd → Prop
  | .again s => s.outlength < h264FrameSizeMax
  | .leave (.returned result) => result.outlength < h264FrameSizeMax
  | .leave (.error result) => result.outlength < h264FrameSizeMax
  | .leave .outOfBounds => True

variable {srcdata : List UInt8} {s : DemuxState}

private theorem appendPayload_below {u : UnitOut} {out : Option (List UInt8) × Int}
    (h : appendPayload srcdata s u = some out) (hs : s.outlength < h264FrameSizeMax) :
    out.2 < h264FrameSizeMax := by
  unfold appendPayload at h
  split at h
  · split at h
    case isTrue hroom =>
      simp only [Option.bind_eq_bind, Option.bind_eq_some_iff, Option.pure_def,
        Option.some.injEq] at h
      obtain ⟨payload, -, rfl⟩ := h
      simp only
      omega
    case isFalse =>
      obtain rfl := Option.some.inj h
      exact hs
  · obtain rfl := Option.some.inj h
    exact hs

private theorem step_below {pass : WhileLoop.Pass DemuxState PsEnd}
    (h : parsingPsStep srcdata s = some pass) (hs : s.outlength < h264FrameSizeMax) : Below pass := by
  have hret (x : UInt32) : 0 ≤ x := UInt32.zero_le
  unfold parsingPsStep at h
  simp only [Option.bind_eq_bind, Option.pure_def, hret, if_true] at h
  split at h
  · obtain ⟨video, -, h⟩ := Option.bind_eq_some_iff.mp h
    split at h
    · obtain ⟨p, -, h⟩ := Option.bind_eq_some_iff.mp h
      obtain ⟨out, happend, h⟩ := Option.bind_eq_some_iff.mp h
      obtain rfl := Option.some.inj h
      exact appendPayload_below happend hs
    · obtain ⟨systemHeader, -, h⟩ := Option.bind_eq_some_iff.mp h
      split at h
      · obtain ⟨p, -, h⟩ := Option.bind_eq_some_iff.mp h
        obtain rfl := Option.some.inj h
        exact hs
      · obtain ⟨streamMap, -, h⟩ := Option.bind_eq_some_iff.mp h
        split at h
        · obtain ⟨p, -, h⟩ := Option.bind_eq_some_iff.mp h
          obtain rfl := Option.some.inj h
          exact hs
        · obtain rfl := Option.some.inj h
          exact hs
  · obtain rfl := Option.some.inj h
    exact hs

private theorem passes_below (fuel : Nat) (hs : s.outlength < h264FrameSizeMax) :
    Below (WhileLoop.passes (parsingPsPass srcdata) fuel s) := by
  induction fuel generalizing s with
  | zero => exact hs
  | succ fuel ih =>
      have hpass : Below (parsingPsPass srcdata s) := by
        rw [parsingPsPass]
        cases hstep : parsingPsStep srcdata s with
        | none => trivial
        | some pass => exact step_below hstep hs
      cases hbody : parsingPsPass srcdata s with
      | again t =>
          rw [hbody] at hpass
          rw [WhileLoop.passes_succ_again hbody]
          exact ih hpass
      | leave e =>
          rw [hbody] at hpass
          rw [WhileLoop.passes_succ_leave hbody]
          exact hpass

private theorem entry_below {pass : WhileLoop.Pass DemuxState PsEnd} {length : Int}
    (h : parsingPsEntry srcdata length = some pass) : Below pass := by
  have hzero : (0 : Int) < h264FrameSizeMax := by decide
  unfold parsingPsEntry at h
  simp only [Option.bind_eq_bind, Option.pure_def] at h
  obtain ⟨streamId, -, h⟩ := Option.bind_eq_some_iff.mp h
  split at h
  · obtain rfl := Option.some.inj h
    exact hzero
  · obtain ⟨p, -, h⟩ := Option.bind_eq_some_iff.mp h
    split at h
    all_goals
      obtain rfl := Option.some.inj h
      exact hzero

/-- No result reaches the size limit. -/
theorem parsed_outlength {call : ParseCall} {fuel : Nat} {result : PsResult}
    (h : parsed call fuel = some result) : result.outlength < h264FrameSizeMax := by
  have hbelow : Below (parsingPs call.srcdata call.length fuel) := by
    rw [parsingPs]
    cases hentry : parsingPsEntry call.srcdata call.length with
    | none => trivial
    | some pass =>
        have hpass := entry_below hentry
        cases pass with
        | again t => exact passes_below fuel hpass
        | leave e => exact hpass
  rw [parsed] at h
  split at h
  case h_1 hleave =>
    rw [hleave] at hbelow
    exact Option.some.inj h ▸ hbelow
  case h_2 hleave =>
    rw [hleave] at hbelow
    exact Option.some.inj h ▸ hbelow
  case h_3 => cases h

/-- A channel whose threads run. `blocks` holds what the buffers of the pushed packets hold, in the
order of their allocation. Histories: the packets taken from the session, the frames given to
`convert` with what it made of them, and the frames sent. -/
structure Relay where
  recv : RecvState
  queue : Queue
  blocks : List (List UInt8)
  send : SendState
  taken : List RtpPacket
  converted : List (List UInt8 × Option CodecOut)
  sent : List SentFrame

/-- The receiver takes a packet and parses with `fuel` passes, or gets the mutex of a `push`; the
sender makes a pass. -/
inductive RelayEvent where
  | packet (pack : RtpPacket) (fuel : Nat)
  | enqueue
  | pass (convert : List UInt8 → Option CodecOut)

namespace Relay

def start (send : SendState) : Relay := ⟨⟨none, 0⟩, Queue.new, [], send, [], [], []⟩

/-- The bytes that `convert` reads of a packet. -/
def bytesOf (blocks : List (List UInt8)) (frame : Packet) : List UInt8 :=
  match frame.data with
  | some buffer => (blocks.getD buffer []).take frame.size.toNat
  | none => []

variable (fresh fresh' : Nat → UInt8) (r : Relay)

/-- `parsingPs` and the test of `oLen`, with the `push` up to its mutex. -/
def parse (call : ParseCall) (fuel : Nat) : Option Relay := do
  let result ← parsed call fuel
  if 0 < result.outlength then
    let queue ← r.queue.push ⟨some r.queue.allocated, UInt32.ofInt result.outlength⟩
    some { r with queue := queue, blocks := r.blocks ++ [result.outData.getD []] }
  else some r

/-- The body of the packet loop of `recvLoopThread`. A receiver inside `push` takes no packet. -/
def recvPass (pack : RtpPacket) (fuel : Nat) : Option Relay :=
  if r.queue.pushing = none then
    let (recv, calls) := recvPacket fresh r.recv pack
    calls.foldlM (fun r call => r.parse call fuel)
      { r with recv := recv, taken := r.taken ++ [pack] }
  else none

/-- The body of `sendLoopThread` with its `pop`. -/
def sendPass (convert : List UInt8 → Option CodecOut) : Option Relay :=
  let (frame, queue) := r.queue.pop
  if !frame.empty then do
    let bytes := bytesOf r.blocks frame
    let (send, sent) ← TdRtp.sendPass fresh' r.send (.frame (convert bytes))
    some { r with
      queue := queue
      send := send
      converted := r.converted ++ [(bytes, convert bytes)]
      sent := r.sent ++ sent }
  else some { r with queue := queue }

def step : RelayEvent → Option Relay
  | .packet pack fuel => r.recvPass fresh pack fuel
  | .enqueue => r.queue.enqueue.map fun queue => { r with queue := queue }
  | .pass convert => r.sendPass fresh' convert

/-- The passes of `sendLoopThread` that have got a frame. -/
def passes : List SendPass := r.converted.map fun frame => .frame frame.2

/-- The frames between the two threads. -/
def waiting : List (List UInt8) := (r.queue.packetQue ++ r.queue.pushing.toList).map (bytesOf r.blocks)

/-- A frame that the receiver queues finds room. -/
def HasRoom : RelayEvent → Prop
  | .enqueue => r.queue.packetQue.length < queueLimit
  | .packet .. | .pass _ => True

variable {fresh fresh' r} {r' : Relay}

private theorem bytesOf_push {blocks : List (List UInt8)} {frame : Packet} {buffer : Nat}
    (hdata : frame.data = some buffer) (hbuffer : buffer < blocks.length) (block : List UInt8) :
    bytesOf (blocks ++ [block]) frame = bytesOf blocks frame := by
  simp [bytesOf, hdata, List.getD_eq_getElem?_getD, List.getElem?_append_left hbuffer]

private theorem size_toNat {size : Int} (hpos : 0 < size) (hlt : size < h264FrameSizeMax) :
    (UInt32.ofInt size).toNat = size.toNat := by
  simp only [UInt32.ofInt, UInt32.toNat_ofNat', h264FrameSizeMax] at hlt ⊢
  omega

private theorem bytesOf_new (blocks : List (List UInt8)) {result : PsResult}
    (hpos : 0 < result.outlength) (hlt : result.outlength < h264FrameSizeMax) :
    some (bytesOf (blocks ++ [result.outData.getD []])
      ⟨some blocks.length, UInt32.ofInt result.outlength⟩) = frameOf result := by
  rw [bytesOf, frameOf, if_pos hpos, size_toNat hpos hlt]
  simp

private theorem not_empty_new {data : Option Nat} {size : Int} (hpos : 0 < size)
    (hlt : size < h264FrameSizeMax) : Packet.empty ⟨data, UInt32.ofInt size⟩ = false := by
  have hsize := size_toNat hpos hlt
  rw [Packet.empty, decide_eq_false_iff_not]
  intro hzero
  simp only at hzero
  rw [hzero, UInt32.toNat_zero] at hsize
  omega

theorem parse_cases {call : ParseCall} {fuel : Nat} (h : r.parse call fuel = some r') :
    ∃ result, parsed call fuel = some result ∧
      ((¬ 0 < result.outlength ∧ r' = r) ∨
        (0 < result.outlength ∧ ∃ queue,
          r.queue.push ⟨some r.queue.allocated, UInt32.ofInt result.outlength⟩ = some queue ∧
          r' = { r with queue := queue, blocks := r.blocks ++ [result.outData.getD []] })) := by
  rw [parse, Option.bind_eq_bind, Option.bind_eq_some_iff] at h
  obtain ⟨result, hparsed, h⟩ := h
  refine ⟨result, hparsed, ?_⟩
  by_cases hpos : 0 < result.outlength
  · rw [if_pos hpos, Option.bind_eq_bind, Option.bind_eq_some_iff] at h
    obtain ⟨queue, hpush, h⟩ := h
    exact Or.inr ⟨hpos, queue, hpush, (Option.some.inj h).symm⟩
  · rw [if_neg hpos] at h
    exact Or.inl ⟨hpos, (Option.some.inj h).symm⟩

theorem recvPacket_calls (fresh : Nat → UInt8) (s : RecvState) (pack : RtpPacket) :
    (recvPacket fresh s pack).2 = [] ∨ ∃ call, (recvPacket fresh s pack).2 = [call] := by
  rw [recvPacket]
  split
  · split
    · exact Or.inr ⟨_, rfl⟩
    · exact Or.inl rfl
  · exact Or.inl rfl

/-- A packet is collected, or it ends a buffer that is parsed. -/
theorem recvPass_cases {pack : RtpPacket} {fuel : Nat} (h : r.recvPass fresh pack fuel = some r') :
    r.queue.pushing = none ∧
      (((recvPacket fresh r.recv pack).2 = [] ∧
          r' = { r with recv := (recvPacket fresh r.recv pack).1, taken := r.taken ++ [pack] }) ∨
        ∃ call, (recvPacket fresh r.recv pack).2 = [call] ∧
          parse { r with recv := (recvPacket fresh r.recv pack).1, taken := r.taken ++ [pack] }
            call fuel = some r') := by
  rw [recvPass] at h
  split at h
  case isTrue hidle =>
    refine ⟨hidle, ?_⟩
    rcases recvPacket_calls fresh r.recv pack with hnone | ⟨call, hone⟩
    · simp only [hnone, List.foldlM_nil, Option.pure_def] at h
      exact Or.inl ⟨hnone, (Option.some.inj h).symm⟩
    · simp only [hone, List.foldlM_cons, List.foldlM_nil, Option.bind_eq_bind, Option.pure_def,
        Option.bind_fun_some] at h
      exact Or.inr ⟨call, hone, h⟩
  case isFalse => cases h

/-- The sender finds nothing, or sends what is made of the frame that has waited longest. -/
theorem sendPass_cases {convert : List UInt8 → Option CodecOut}
    (h : r.sendPass fresh' convert = some r') :
    (r.queue.pop.1.empty = true ∧ r' = { r with queue := r.queue.pop.2 }) ∨
      (r.queue.pop.1.empty = false ∧ ∃ send sent bytes, bytes = bytesOf r.blocks r.queue.pop.1 ∧
        TdRtp.sendPass fresh' r.send (.frame (convert bytes)) = some (send, sent) ∧
        r' = { r with
          queue := r.queue.pop.2, send := send, sent := r.sent ++ sent
          converted := r.converted ++ [(bytes, convert bytes)] }) := by
  rw [sendPass] at h
  cases hempty : r.queue.pop.1.empty with
  | true =>
      simp only [hempty, Bool.not_true, Bool.false_eq_true, if_false] at h
      exact Or.inl ⟨rfl, (Option.some.inj h).symm⟩
  | false =>
      simp only [hempty, Bool.not_false, if_true, Option.bind_eq_bind, Option.bind_eq_some_iff] at h
      obtain ⟨⟨send, sent⟩, hsend, h⟩ := h
      exact Or.inr ⟨rfl, send, sent, _, rfl, hsend, (Option.some.inj h).symm⟩

/-- The call of `parsingPs` gives back the result. -/
def Returns (call : ParseCall) (result : PsResult) : Prop := ∃ fuel, parsed call fuel = some result

/-- The calls of `parsingPs` for the packets taken so far. -/
def calls (fresh : Nat → UInt8) (r : Relay) : List ParseCall :=
  (run (recvPacket fresh) ⟨none, 0⟩ r.taken).2

/-- The pushed packets hold the frames of the results, in their order; the sender has been given
those it has popped, and has sent what its loop sends for them. -/
structure Relays (fresh fresh' : Nat → UInt8) (send : SendState) (r : Relay) : Prop where
  flows : r.queue.Flows
  allocated : r.queue.allocated = r.blocks.length
  buffers : ∀ frame ∈ r.queue.pushed,
    frame.empty = false ∧ ∃ buffer < r.blocks.length, frame.data = some buffer
  recv : (run (recvPacket fresh) ⟨none, 0⟩ r.taken).1 = r.recv
  frames : ∃ results, List.Forall₂ Returns (r.calls fresh) results ∧
    r.queue.pushed.map (bytesOf r.blocks) = results.filterMap frameOf
  converted : r.converted.map Prod.fst = r.queue.returned.map (bytesOf r.blocks)
  sent : ∀ later sent, sendLoopThread fresh' r.send later = some sent →
    sendLoopThread fresh' send (r.passes ++ later) = some (r.sent ++ sent)

variable {send : SendState}

theorem relays_start (fresh fresh' : Nat → UInt8) (send : SendState) :
    Relays fresh fresh' send (start send) where
  flows := ⟨rfl, rfl, List.Sublist.refl []⟩
  allocated := rfl
  buffers := fun _ h => nomatch h
  recv := rfl
  frames := ⟨[], .nil, rfl⟩
  converted := rfl
  sent := fun _ _ h => h

private theorem map_bytesOf_push {blocks : List (List UInt8)} {frames : List Packet}
    (h : ∀ frame ∈ frames, frame.empty = false ∧ ∃ buffer < blocks.length, frame.data = some buffer)
    (block : List UInt8) :
    frames.map (bytesOf (blocks ++ [block])) = frames.map (bytesOf blocks) := by
  apply List.map_congr_left
  intro frame hframe
  obtain ⟨-, buffer, hlt, hdata⟩ := h frame hframe
  exact bytesOf_push hdata hlt block

theorem Relays.returned_pushed (h : Relays fresh fresh' send r) :
    ∀ frame ∈ r.queue.returned, frame ∈ r.queue.pushed := by
  intro frame hframe
  have haccepted : frame ∈ r.queue.accepted := by
    rw [h.flows.accepted]
    exact List.mem_append_left _ hframe
  exact List.mem_append_left _ (h.flows.handedOver.subset haccepted)

private theorem Relays.recvPass {pack : RtpPacket} {fuel : Nat} (h : Relays fresh fresh' send r)
    (hstep : r.recvPass fresh pack fuel = some r') : Relays fresh fresh' send r' := by
  obtain ⟨results, hreturns, hframes⟩ := h.frames
  have htaken : run (recvPacket fresh) ⟨none, 0⟩ (r.taken ++ [pack]) =
      ((recvPacket fresh r.recv pack).1, r.calls fresh ++ (recvPacket fresh r.recv pack).2) := by
    rw [Transducer.run_append, h.recv, calls]
    simp [Transducer.run]
  obtain ⟨hidle, ⟨hnone, rfl⟩ | ⟨call, hone, hparse⟩⟩ := recvPass_cases hstep
  · refine ⟨h.flows, h.allocated, h.buffers, ?_, ⟨results, ?_, hframes⟩, h.converted, h.sent⟩
    · rw [htaken]
    · rw [calls, htaken, hnone, List.append_nil]
      exact hreturns
  · obtain ⟨result, hparsed, hcases⟩ := parse_cases hparse
    have hreturns' : List.Forall₂ Returns (r.calls fresh ++ [call]) (results ++ [result]) :=
      List.rel_append hreturns (.cons ⟨fuel, hparsed⟩ .nil)
    rw [hone] at htaken
    obtain ⟨hnot, rfl⟩ | ⟨hpos, queue, hpush, rfl⟩ := hcases
    · refine ⟨h.flows, h.allocated, h.buffers, ?_, ⟨results ++ [result], ?_, ?_⟩, h.converted,
        h.sent⟩
      · rw [htaken]
      · rw [calls, htaken]
        exact hreturns'
      · rw [hframes, List.filterMap_append]
        simp [frameOf, hnot]
    · obtain ⟨hflows, hpushed, hallocated, hreturned, -⟩ := h.flows.push hpush
      have hnew := bytesOf_new r.blocks hpos (parsed_outlength hparsed)
      refine ⟨hflows, ?_, ?_, ?_, ⟨results ++ [result], ?_, ?_⟩, ?_, h.sent⟩
      · rw [hallocated, h.allocated, List.length_append, List.length_singleton]
      · intro frame hframe
        rw [hpushed, List.mem_append, List.mem_singleton] at hframe
        simp only [List.length_append, List.length_singleton]
        rcases hframe with hold | rfl
        · obtain ⟨hfull, buffer, hlt, hdata⟩ := h.buffers frame hold
          exact ⟨hfull, buffer, by omega, hdata⟩
        · exact ⟨not_empty_new hpos (parsed_outlength hparsed), r.queue.allocated,
            by rw [h.allocated]; omega, rfl⟩
      · rw [htaken]
      · rw [calls, htaken]
        exact hreturns'
      · rw [hpushed, List.map_append, map_bytesOf_push h.buffers, hframes, List.filterMap_append,
          h.allocated, List.map_singleton, List.filterMap_cons_some hnew.symm, List.filterMap_nil]
      · rw [h.converted, hreturned, map_bytesOf_push fun frame hframe =>
          h.buffers frame (h.returned_pushed frame hframe)]

private theorem Relays.enqueue {queue : Queue} (h : Relays fresh fresh' send r)
    (henqueue : r.queue.enqueue = some queue) :
    Relays fresh fresh' send { r with queue := queue } := by
  obtain ⟨hflows, hpushed, hallocated, hreturned, -⟩ := h.flows.enqueue henqueue
  refine ⟨hflows, ?_, ?_, h.recv, ?_, ?_, h.sent⟩
  · rw [hallocated, h.allocated]
  · rw [hpushed]
    exact h.buffers
  · rw [hpushed]
    exact h.frames
  · rw [hreturned]
    exact h.converted

private theorem Relays.sendPass {convert : List UInt8 → Option CodecOut}
    (h : Relays fresh fresh' send r) (hstep : r.sendPass fresh' convert = some r') :
    Relays fresh fresh' send r' := by
  obtain ⟨hflows, hpushed, hallocated, -, hreturned⟩ := h.flows.pop
  have hknown {frame : Packet} (hframe : frame ∈ r.queue.accepted) : frame.empty = false :=
    (h.buffers frame (List.mem_append_left _ (h.flows.handedOver.subset hframe))).1
  rcases sendPass_cases hstep with ⟨hempty, rfl⟩ | ⟨hfull, send', sent, bytes, rfl, hsend, rfl⟩
  · refine ⟨hflows, ?_, ?_, h.recv, ?_, ?_, h.sent⟩
    · rw [hallocated, h.allocated]
    · rw [hpushed]
      exact h.buffers
    · rw [hpushed]
      exact h.frames
    · rcases hreturned with ⟨-, hsame⟩ | ⟨hframe, -⟩
      · rw [hsame]
        exact h.converted
      · rw [hknown hframe] at hempty
        cases hempty
  · refine ⟨hflows, ?_, ?_, h.recv, ?_, ?_, ?_⟩
    · rw [hallocated, h.allocated]
    · rw [hpushed]
      exact h.buffers
    · rw [hpushed]
      exact h.frames
    · rcases hreturned with ⟨hempty, -⟩ | ⟨-, hmore⟩
      · rw [hfull] at hempty
        cases hempty
      · rw [hmore, List.map_append, List.map_append, h.converted, List.map_singleton,
          List.map_singleton]
    · intro later sent' hlater
      have hnext : sendLoopThread fresh' r.send
          (.frame (convert (bytesOf r.blocks r.queue.pop.1)) :: later) = some (sent ++ sent') := by
        rw [sendLoopThread, hsend, Option.bind_eq_bind, Option.bind_some, hlater]
        rfl
      have hall := h.sent _ _ hnext
      rw [passes, List.map_append, List.map_singleton, List.append_assoc, List.append_assoc]
      exact hall

theorem Relays.step {e : RelayEvent} (h : Relays fresh fresh' send r)
    (hstep : r.step fresh fresh' e = some r') : Relays fresh fresh' send r' := by
  cases e with
  | packet pack fuel => exact h.recvPass hstep
  | enqueue =>
      obtain ⟨queue, henqueue, rfl⟩ := Option.map_eq_some_iff.mp hstep
      exact h.enqueue henqueue
  | pass convert => exact h.sendPass hstep

private theorem whole_step {e : RelayEvent} (h : Relays fresh fresh' send r)
    (hstep : r.step fresh fresh' e = some r') :
    r'.queue.Whole ↔ r.queue.Whole ∧ r.HasRoom e := by
  cases e with
  | packet pack fuel =>
      rw [HasRoom, and_true]
      obtain ⟨-, ⟨-, rfl⟩ | ⟨call, -, hparse⟩⟩ := recvPass_cases hstep
      · exact Iff.rfl
      · obtain ⟨result, -, ⟨-, rfl⟩ | ⟨-, queue, hpush, rfl⟩⟩ := parse_cases hparse
        · exact Iff.rfl
        · exact (h.flows.push hpush).2.2.2.2
  | enqueue =>
      obtain ⟨queue, henqueue, rfl⟩ := Option.map_eq_some_iff.mp hstep
      exact (h.flows.enqueue henqueue).2.2.2.2
  | pass convert =>
      rw [HasRoom, and_true]
      rcases sendPass_cases hstep with ⟨-, rfl⟩ | ⟨-, send', sent, bytes, -, -, rfl⟩
      · exact h.flows.pop.2.2.2.1
      · exact h.flows.pop.2.2.2.1

section Runs

variable {events : List RelayEvent}
  (hrun : Machine.run (step fresh fresh') (start send) events = some r)

include hrun

theorem relays_run : Relays fresh fresh' send r :=
  (statesHold_of_invariant (fun _ _ _ h hstep => Relays.step h hstep)
    (relays_start fresh fresh' send)).last hrun

theorem whole_run_iff :
    r.queue.Whole ↔ StepsMeet (step fresh fresh') HasRoom (start send) events := by
  rw [last_iff_steps_of_invariant (fun _ _ _ h hstep => Relays.step h hstep)
    (fun _ _ _ h hstep => whole_step h hstep) (relays_start fresh fresh' send) hrun]
  exact and_iff_right rfl

end Runs

/-- The frames of the sender and those that wait are the frames of the pushes that were not dropped. -/
theorem Relays.kept (h : Relays fresh fresh' send r) :
    r.converted.map Prod.fst ++ r.waiting =
      (r.queue.accepted ++ r.queue.pushing.toList).map (bytesOf r.blocks) := by
  rw [h.converted, waiting, h.flows.accepted]
  simp

/-- In every run the sender is given whole frames of the receiver, each at most once and in their
order, and sends what its loop makes of them. Nothing is lost exactly if every frame that the
receiver queues finds room. -/
theorem relay_frames (fresh fresh' : Nat → UInt8) (send : SendState) (events : List RelayEvent)
    (r : Relay) (hrun : Machine.run (step fresh fresh') (start send) events = some r) :
    sendLoopThread fresh' send r.passes = some r.sent ∧
      ∃ results, List.Forall₂ Returns (r.calls fresh) results ∧
        (r.converted.map Prod.fst ++ r.waiting).Sublist (results.filterMap frameOf) ∧
        (r.converted.map Prod.fst ++ r.waiting = results.filterMap frameOf ↔
          StepsMeet (step fresh fresh') HasRoom (start send) events) := by
  have h := relays_run hrun
  obtain ⟨results, hreturns, hframes⟩ := h.frames
  have hsent := h.sent [] [] rfl
  rw [List.append_nil, List.append_nil] at hsent
  refine ⟨hsent, results, hreturns, ?_, ?_⟩
  · rw [h.kept, ← hframes]
    exact (h.flows.handedOver.append (List.Sublist.refl _)).map _
  · rw [← whole_run_iff hrun, h.kept, ← hframes]
    constructor
    · intro hsame
      have hlength := congrArg List.length hsame
      simp only [List.length_map, Queue.pushed, List.length_append, Nat.add_right_cancel_iff]
        at hlength
      exact h.flows.handedOver.eq_of_length hlength
    · intro hwhole
      rw [hwhole, Queue.pushed]

/-- A pack with one video packet of one byte. -/
private def onePack : List UInt8 :=
  [0, 0, 1, 0xBA, 0x44, 0, 4, 0, 4, 1, 0, 0, 3, 0xF8, 0, 0, 1, 0xE0, 0, 4, 0x80, 0, 0, 42]

theorem relay_frames_onePack :
    ∃ r results, Machine.run (step (fun _ => 0) (fun _ => 0)) (start ⟨0, ⟨7, 0, 0⟩⟩)
        [.packet ⟨96, true, 0, 0, 8, onePack⟩ 2, .enqueue, .pass fun _ => none] = some r ∧
      r.converted = [([42], none)] ∧ List.Forall₂ Returns (r.calls fun _ => 0) results ∧
      ([[42]] : List (List UInt8)).Sublist (results.filterMap frameOf) := by
  obtain ⟨r, hrun, hconverted⟩ : ∃ r, Machine.run (step (fun _ => 0) (fun _ => 0))
      (start ⟨0, ⟨7, 0, 0⟩⟩)
      [.packet ⟨96, true, 0, 0, 8, onePack⟩ 2, .enqueue, .pass fun _ => none] = some r ∧
        r.converted = [([42], none)] := ⟨_, rfl, rfl⟩
  obtain ⟨-, results, hreturns, hframes, -⟩ :=
    relay_frames (fun _ => 0) (fun _ => 0) ⟨0, ⟨7, 0, 0⟩⟩ _ r hrun
  rw [hconverted] at hframes
  exact ⟨r, results, hrun, hconverted, hreturns, (List.sublist_append_left _ _).trans hframes⟩

/-- The queue is open, empty and has lost nothing, the receiver is not inside `push`, and the codec
has been `convert`. -/
structure Idle (convert : List UInt8 → Option CodecOut) (r : Relay) : Prop where
  access : r.queue.isAccess = true
  whole : r.queue.Whole
  pushing : r.queue.pushing = none
  packetQue : r.queue.packetQue = []
  converted : ∀ frame ∈ r.converted, frame.2 = convert frame.1

variable {convert : List UInt8 → Option CodecOut}

theorem Idle.waiting (h : r.Idle convert) : r.waiting = [] := by
  rw [Relay.waiting, h.pushing, h.packetQue]
  rfl

end Relay

end GMProxy.TdRtp
