import GMProxy.Rtp.Session
import GMProxy.Library.Delimited

/-!
# Reassembly of frames

The buffers that `recvLoopThread` hands to `parsingPs` are the groups of received packets that a
marker ends. Nothing else delimits them: neither the source nor the sequence number is looked at.
-/

namespace GMProxy.TdRtp

open CMemory Transducer Delimited

/-- Packets as `sendData` makes them of `data`: the last one alone carries the marker. -/
structure IsFrame (packs : List RtpPacket) (data : List UInt8) : Prop where
  split : ∃ body last, packs = body ++ [last] ∧ (∀ pack ∈ body, pack.marker = false) ∧
    last.marker = true
  payloadType : ∀ pack ∈ packs, pack.payloadType = 96
  payload : packs.flatMap RtpPacket.payload = data

variable {b : RtpPacketBuilder} {data : List UInt8}

private theorem sendPacket_eq (b : RtpPacketBuilder) (data : List UInt8) (offset : Nat) {len : Nat}
    (hlen : len ≤ 1280) (mark : Bool) :
    ∃ b' pack, sendPacket b data offset len 96 mark 10 = (b', [pack]) ∧ pack.marker = mark ∧
      pack.payloadType = 96 ∧ pack.payload = (data.drop offset).take len := by
  refine ⟨_, _, if_neg ?_, rfl, rfl, rfl⟩
  simp only [rtpDefaultPacketSize, sizeofRtpHeader]
  omega

private theorem sendLoop_isFrame {leftsize offset : Nat} (hleft : offset + leftsize = data.length)
    (hfits : leftsize < 2 ^ 31) : IsFrame (sendLoop b data leftsize offset).2 (data.drop offset) := by
  induction leftsize using Nat.strongRecOn generalizing b offset with
  | ind leftsize ih =>
      unfold sendLoop
      by_cases hmore : 1280 < leftsize
      · obtain ⟨b', pack, hsend, hmark, htype, hpayload⟩ :=
          sendPacket_eq b data offset (Nat.le_refl 1280) false
        have hsub : (leftsize : Int) - 1280 = ((leftsize - 1280 : Nat) : Int) := by omega
        rw [if_pos (by omega), hsend, hsub]
        obtain ⟨⟨body, last, hsplit, hbody, hlast⟩, htypes, hrest⟩ :=
          ih (leftsize - 1280) (by omega) (b := b') (show offset + 1280 + _ = _ by omega) (by omega)
        refine ⟨⟨pack :: body, last, ?_, ?_, hlast⟩, ?_, ?_⟩
        · simp only [hsplit, List.cons_append, List.nil_append]
        · intro p hp
          rcases List.mem_cons.mp hp with rfl | hp
          · exact hmark
          · exact hbody p hp
        · intro p hp
          rcases List.mem_cons.mp hp with rfl | hp
          · exact htype
          · exact htypes p hp
        · simp only [List.cons_append, List.nil_append, List.flatMap_cons, hrest, hpayload]
          rw [← List.drop_drop, List.take_append_drop]
      · have hcount : toSize (leftsize : Int) = leftsize := by
          rw [toSize_of_nonneg (by omega) (by omega)]
          omega
        obtain ⟨b', pack, hsend, hmark, htype, hpayload⟩ :=
          sendPacket_eq b data offset (Nat.le_of_not_lt hmore) true
        rw [if_neg (by omega), hcount, hsend]
        refine ⟨⟨[], pack, rfl, by simp, hmark⟩, ?_, ?_⟩
        · intro p hp
          rw [List.mem_singleton.mp hp]
          exact htype
        · rw [List.flatMap_cons, List.flatMap_nil, List.append_nil, hpayload,
            List.take_of_length_le (by rw [List.length_drop]; omega)]

theorem sendData_isFrame (b : RtpPacketBuilder) (hsize : data.length < 2 ^ 31) :
    IsFrame (sendData b data).2 data := by
  have hleft : toInt (data.length : Int) = data.length := toInt_of_mem (by omega) (by omega)
  rw [sendData, hleft]
  exact sendLoop_isFrame (Nat.zero_add _) hsize

/-- What `parsingPs` is called with for a group of packets. -/
def callOf (packs : List RtpPacket) : ParseCall :=
  ⟨packs.flatMap RtpPacket.payload, (packs.flatMap RtpPacket.payload).length⟩

/-- The receiver has collected `packs`. -/
structure RecvState.Holds (s : RecvState) (packs : List RtpPacket) : Prop where
  rtpOut : s.rtpOut.getD [] = packs.flatMap RtpPacket.payload
  pos : s.pos = (packs.flatMap RtpPacket.payload).length

variable {fresh : Nat → UInt8} {s : RecvState} {acc packs : List RtpPacket} {pack : RtpPacket}

private theorem holds_start : RecvState.Holds ⟨none, 0⟩ [] := ⟨rfl, rfl⟩

private theorem collect_eq (fresh : Nat → UInt8) (h : s.Holds acc) (pack : RtpPacket) :
    store (realloc fresh (s.rtpOut.getD []) (s.pos + pack.payload.length)) s.pos pack.payload =
      (acc ++ [pack]).flatMap RtpPacket.payload := by
  obtain ⟨room, hroom, hgrow⟩ :=
    exists_realloc_grow fresh (acc.flatMap RtpPacket.payload) pack.payload.length
  rw [h.rtpOut, h.pos, hgrow, store_append hroom, List.flatMap_append, List.flatMap_cons,
    List.flatMap_nil, List.append_nil]

private theorem collect_length (h : s.Holds acc) (pack : RtpPacket) :
    s.pos + pack.payload.length = ((acc ++ [pack]).flatMap RtpPacket.payload).length := by
  rw [h.pos, List.flatMap_append, List.length_append, List.flatMap_cons, List.flatMap_nil,
    List.append_nil]

theorem recvPacket_marker (h : s.Holds acc) (htype : pack.payloadType = 96)
    (hmark : pack.marker = true) :
    recvPacket fresh s pack = (⟨none, 0⟩, [callOf (acc ++ [pack])]) := by
  rw [recvPacket, if_pos htype, if_pos hmark, collect_eq fresh h, collect_length h]
  rfl

theorem recvPacket_more (fresh : Nat → UInt8) (h : s.Holds acc) (htype : pack.payloadType = 96)
    (hmark : pack.marker = false) :
    ∃ s' : RecvState, recvPacket fresh s pack = (s', []) ∧ s'.Holds (acc ++ [pack]) := by
  refine ⟨_, by rw [recvPacket, if_pos htype, if_neg (by rw [hmark]; decide)], ?_, ?_⟩
  · exact collect_eq fresh h pack
  · exact collect_length h pack

theorem recvPacket_other (htype : pack.payloadType ≠ 96) : recvPacket fresh s pack = (s, []) :=
  if_neg htype

def isH264 (pack : RtpPacket) : Bool := pack.payloadType = 96

theorem run_recvPacket (h : s.Holds acc) :
    (run (recvPacket fresh) s packs).2 =
      (groups RtpPacket.marker acc (packs.filter isH264)).map callOf := by
  induction packs generalizing s acc with
  | nil => rfl
  | cons pack packs ih =>
      rw [run_cons]
      by_cases htype : pack.payloadType = 96
      · rw [List.filter_cons_of_pos (by rw [isH264, htype]; rfl)]
        cases hmark : pack.marker with
        | true =>
            rw [recvPacket_marker h htype hmark, ih holds_start, groups_cons_end hmark]
            rfl
        | false =>
            obtain ⟨s', hstep, hholds⟩ := recvPacket_more fresh h htype hmark
            rw [hstep, ih hholds, groups_cons_more hmark]
            rfl
      · rw [List.filter_cons_of_neg (by simp [isH264, htype]), recvPacket_other htype, ih h]
        rfl

/-- The packets of payload type 96 received in a run, in their order. -/
def received (rounds : List RecvRound) : List RtpPacket := (deliveries rounds).filter isH264

theorem recvLoopThread_eq (fresh : Nat → UInt8) (rounds : List RecvRound) :
    recvLoopThread fresh rounds =
      (groups RtpPacket.marker [] (received rounds)).map callOf := by
  have hsources (s : RecvState) (sources : List (List RtpPacket)) :
      run (recvSource fresh) s sources = run (recvPacket fresh) s sources.flatten := by
    have hsource (s : RecvState) (source : List RtpPacket) :
        recvSource fresh s source = run (recvPacket fresh) s (id source) := rfl
    rw [run_nested _ hsource, List.flatMap_id]
  have hround (s : RecvState) (round : RecvRound) : recvRound fresh s round =
      run (recvPacket fresh) s (if round.isComing then round.sources.flatten else []) := by
    rw [recvRound]
    split
    · exact hsources s round.sources
    · rfl
  rw [recvLoopThread, run_nested _ hround, run_recvPacket holds_start]
  rfl

/-- A packet with what it was sent for, whose marker ends a group. -/
def endsFrame {ω : Type*} (item : RtpPacket × ω) : Bool := item.1.marker

private theorem split_of_map_fst {ω : Type*} {frame : List (RtpPacket × ω)} {body : List RtpPacket}
    {last : RtpPacket} (h : frame.map Prod.fst = body ++ [last]) :
    ∃ body' last', frame = body' ++ [last'] ∧ body'.map Prod.fst = body ∧ last'.1 = last := by
  obtain ⟨body', tail', rfl, hbody', htail'⟩ := List.map_eq_append_iff.mp h
  obtain ⟨last', tail, rfl, hlast', htail⟩ := List.map_eq_cons_iff.mp htail'
  rw [List.map_eq_nil_iff.mp htail]
  exact ⟨body', last', rfl, hbody', hlast'⟩

/-- The buffers of a run are the groups of the received packets that a marker ends. They are all of
one frame exactly when no packet without marker is followed, before a marker has come, by a packet
of another frame. A frame whose packets all come in one stretch, at the start or behind a marker, is
handed on whole and alone. -/
theorem recvLoopThread_buffers {ω : Type*} (fresh : Nat → UInt8) (rounds : List RecvRound)
    (trace : List (RtpPacket × ω)) (htrace : trace.map Prod.fst = received rounds) :
    recvLoopThread fresh rounds =
        (groups endsFrame [] trace).map (fun g => callOf (g.map Prod.fst)) ∧
      ((∀ g ∈ groups endsFrame [] trace, Uniform Prod.snd g) ↔
        GoesOnAlike endsFrame Prod.snd trace) ∧
      ∀ b data pre frame post, data.length < 2 ^ 31 → trace = pre ++ frame ++ post →
        frame.map Prod.fst = (sendData b data).2 → (∀ last ∈ pre.getLast?, endsFrame last = true) →
        frame ∈ groups endsFrame [] trace ∧
          callOf (frame.map Prod.fst) = ⟨data, data.length⟩ := by
  refine ⟨?_, uniform_groups_iff, ?_⟩
  · have hgroups := groups_map RtpPacket.marker Prod.fst [] trace
    rw [htrace, List.map_nil] at hgroups
    rw [recvLoopThread_eq, hgroups, List.map_map]
    rfl
  · intro b data pre frame post hsize hsplit hframe hstart
    obtain ⟨⟨body, last, hpacks, hbody, hlast⟩, -, hpayload⟩ := sendData_isFrame b hsize
    rw [← hframe] at hpacks hpayload
    constructor
    · obtain ⟨body', last', rfl, hbody', hlast'⟩ := split_of_map_fst hpacks
      have hopen : ∀ item ∈ body', endsFrame item = false := fun item hitem =>
        hbody item.1 (by rw [← hbody']; exact List.mem_map_of_mem hitem)
      have hend : endsFrame last' = true := by
        rw [endsFrame, hlast', hlast]
      have hfresh : pending endsFrame [] pre = [] := by
        rcases List.eq_nil_or_concat' pre with rfl | ⟨init, item, rfl⟩
        · rfl
        · exact pending_of_end (hstart item (by rw [List.getLast?_concat]; rfl))
      rw [hsplit, groups_append, groups_append, hfresh, groups_whole hopen hend]
      simp
    · rw [callOf, hpayload]

private def wholeFrame : List RecvRound :=
  [⟨true, [[⟨8, true, 0, 0, 3, [9]⟩, ⟨96, true, 0, 0, 7, [1, 2]⟩]]⟩]

theorem recvLoopThread_wholeFrame :
    recvLoopThread (fun _ => 0) wholeFrame = [⟨[1, 2], 2⟩] :=
  (recvLoopThread_buffers (fun _ => 0) wholeFrame [(⟨96, true, 0, 0, 7, [1, 2]⟩, 0)] rfl).1

/-- A source: its packet builder and the frames it sends. -/
structure Sender where
  builder : RtpPacketBuilder
  frames : List (List UInt8)

def Sender.packets (sender : Sender) : List (List RtpPacket) :=
  sendFrames sender.builder sender.frames

/-- What a session can give the receiver: of each source a part of its packets, in their order, and
in one visit the packets of one source. -/
structure Deliverable (senders : List Sender) (rounds : List RecvRound) : Prop where
  sources : (senders.map fun sender => sender.builder.ssrc).Nodup
  known : ∀ pack ∈ received rounds, pack.ssrc ∈ senders.map fun sender => sender.builder.ssrc
  inOrder : ∀ sender ∈ senders,
    ((received rounds).filter fun pack => pack.ssrc = sender.builder.ssrc).Sublist
      sender.packets.flatten
  visits : ∀ round ∈ rounds, ∀ source ∈ round.sources, ∃ ssrc, ∀ pack ∈ source, pack.ssrc = ssrc

/-- The bytes are payloads of one frame of one source. -/
def OneFrameOnly (senders : List Sender) (srcdata : List UInt8) : Prop :=
  ∃ sender ∈ senders, ∃ frame ∈ sender.packets, ∃ part, List.Sublist part frame ∧
    srcdata = part.flatMap RtpPacket.payload

def lossySender : Sender := ⟨⟨7, 0, 0⟩, [List.replicate 1281 1, [2]]⟩

def firstPacket : RtpPacket := ⟨96, false, 0, 0, 7, List.replicate 1280 1⟩
def lostPacket : RtpPacket := ⟨96, true, 1, 10, 7, [1]⟩
def nextPacket : RtpPacket := ⟨96, true, 2, 20, 7, [2]⟩

/-- The second packet of the first frame, which has its marker, is lost. -/
def lostMarker : List RecvRound := [⟨true, [[firstPacket, nextPacket]]⟩]

theorem lossySender_packets :
    lossySender.packets = [[firstPacket, lostPacket], [nextPacket]] := by
  have hfirst : sendData ⟨7, 0, 0⟩ (List.replicate 1281 1) =
      (⟨7, 2, 20⟩, [firstPacket, lostPacket]) := by
    have hleft : toInt ((List.replicate 1281 (1 : UInt8)).length : Int) = 1281 := by
      rw [List.length_replicate]
      rfl
    have hhead : (List.replicate 1281 (1 : UInt8)).take 1280 = List.replicate 1280 1 := by
      rw [List.take_replicate, Nat.min_eq_left (by decide)]
    have hlast : ((List.replicate 1281 (1 : UInt8)).drop 1280).take 1 = [1] := by
      rw [List.drop_replicate]
      rfl
    rw [sendData, hleft, sendLoop, if_pos (by decide)]
    simp only [sendPacket, rtpDefaultPacketSize, sizeofRtpHeader, List.drop_zero, hhead]
    rw [sendLoop, if_neg (by decide), sendPacket, if_neg (by decide),
      show toSize (1281 - 1280) = 1 from rfl, Nat.zero_add, hlast]
    rfl
  have hnext : sendData ⟨7, 2, 20⟩ [2] = (⟨7, 3, 30⟩, [nextPacket]) := by
    rw [sendData, sendLoop]
    rfl
  rw [Sender.packets, lossySender, sendFrames, sendFrames, sendFrames, hfirst, hnext]

private theorem mem_payload_of_sublist {part frame : List RtpPacket} {x : UInt8}
    (h : List.Sublist part frame) (hx : x ∈ part.flatMap RtpPacket.payload) :
    x ∈ frame.flatMap RtpPacket.payload := by
  obtain ⟨pack, hpack, hmem⟩ := List.mem_flatMap.mp hx
  exact List.mem_flatMap.mpr ⟨pack, h.subset hpack, hmem⟩

/-- Without the marker of the first frame the second frame is joined to it. -/
theorem lostMarker_mixes :
    Deliverable [lossySender] lostMarker ∧
      ∃ call ∈ recvLoopThread (fun _ => 0) lostMarker,
        ¬ OneFrameOnly [lossySender] call.srcdata := by
  have hreceived : received lostMarker = [firstPacket, nextPacket] := rfl
  constructor
  · refine ⟨by simp, ?_, ?_, ?_⟩
    · rw [hreceived]
      intro pack hpack
      rcases List.mem_cons.mp hpack with rfl | hpack
      · exact List.mem_singleton_self _
      · rw [List.mem_singleton.mp hpack]
        exact List.mem_singleton_self _
    · intro sender hsender
      rw [List.mem_singleton.mp hsender, lossySender_packets, hreceived]
      exact List.Sublist.trans List.filter_sublist
        (.cons_cons _ (.cons _ (List.Sublist.refl _)))
    · intro round hround source hsource
      rw [List.mem_singleton.mp hround] at hsource
      rw [List.mem_singleton.mp hsource]
      refine ⟨7, fun pack hpack => ?_⟩
      rcases List.mem_cons.mp hpack with rfl | hpack
      · rfl
      · rw [List.mem_singleton.mp hpack]
        rfl
  · have hcalls : recvLoopThread (fun _ => 0) lostMarker =
        [callOf [firstPacket, nextPacket]] := by
      rw [recvLoopThread_eq, hreceived]
      rfl
    refine ⟨_, by rw [hcalls]; exact List.mem_singleton_self _, ?_⟩
    rintro ⟨sender, hsender, frame, hframe, part, hpart, hdata⟩
    rw [List.mem_singleton.mp hsender, lossySender_packets] at hframe
    have hmem (x : UInt8) (hx : x ∈ [firstPacket, nextPacket].flatMap RtpPacket.payload) :
        x ∈ frame.flatMap RtpPacket.payload :=
      mem_payload_of_sublist hpart (by rw [← hdata]; exact hx)
    rcases List.mem_cons.mp hframe with rfl | hframe
    · have htwo := hmem 2 (List.mem_flatMap.mpr ⟨nextPacket, by simp, by simp [nextPacket]⟩)
      obtain ⟨pack, hpack, hbyte⟩ := List.mem_flatMap.mp htwo
      rcases List.mem_cons.mp hpack with rfl | hpack
      · exact absurd (List.eq_of_mem_replicate hbyte) (by decide)
      · rw [List.mem_singleton.mp hpack] at hbyte
        exact absurd hbyte (by decide)
    · have hone := hmem 1 (List.mem_flatMap.mpr
        ⟨firstPacket, by simp, List.mem_replicate.mpr ⟨by decide, rfl⟩⟩)
      rw [List.mem_singleton.mp hframe] at hone
      exact absurd hone (by decide)

end GMProxy.TdRtp
