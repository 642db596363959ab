import GMProxy.Rtp.Wire
import GMProxy.Jrtplib.Taken

/-!
# Frames over the network

The datagrams of a sender arrive out of order, more than once and among the datagrams of others; the
session of the receiver puts them in order and `recvLoopThread` puts the frames together again.
-/

namespace GMProxy.TdRtp

open Jrtplib KeyTable Serial Reorder

variable (comesFromThisTransmitter : RtpIPv4Address → Bool) (b : RtpPacketBuilder)
  (packs : List RtpPacket) (own : RtpIPv4Address)

/-- The packet at a place; the first packet is at the place of the builder's number. -/
def packetAt (e : Nat) : RtpPacket :=
  { packs.getD (e - b.seqnr.toNat) ⟨96, true, 0, 0, b.ssrc, []⟩ with
    sequenceNumber := UInt16.ofNat e }

/-- A datagram that is neither taken for one of the sender's packets nor carries H.264. -/
def Foreign (g : Datagram) : Prop :=
  ∀ p ∈ rtpPackets comesFromThisTransmitter [g], b.ssrc ∉ p.1.csrcs ∧
    (p.1.ssrc = b.ssrc → p.2 ≠ senderOf comesFromThisTransmitter own) ∧
    (p.1.ssrc ≠ b.ssrc → p.1.payloadtype ≠ 96)

/-- Datagrams among which are those of the packets at the given places, in the order of the places. -/
inductive Arrives : List Datagram → List Nat → Prop
  | nil : Arrives [] []
  | packet {datagrams : List Datagram} {places : List Nat} (e : Nat)
      (h : Arrives datagrams places) :
      Arrives (⟨(packetAt b packs e).bytes, own⟩ :: datagrams) (e :: places)
  | foreign {datagrams : List Datagram} {places : List Nat} (g : Datagram)
      (hg : Foreign comesFromThisTransmitter b own g) (h : Arrives datagrams places) :
      Arrives (g :: datagrams) places

/-- A way in which all packets of a sender reach a new session: batches of datagrams between the
readings of the session, and the places of the packets in them. -/
structure Delivery where
  datagrams : List (List Datagram)
  early : List (List Nat)
  last : List Nat
  later : List (List Nat)
  arrives : List.Forall₂ (Arrives comesFromThisTransmitter b packs own) datagrams
    (early ++ last :: later)
  /-- Nobody has used the number of the sender before. -/
  first : FirstFrom b.ssrc (senderOf comesFromThisTransmitter own)
    (rtpPackets comesFromThisTransmitter datagrams.flatten)
  /-- The source is validated before it has waited too long. -/
  waiting : ¬ HasThree (early.flatten.map UInt16.ofNat)
  validated : HasThree ((early.flatten ++ last).map UInt16.ofNat)
  room : (early.flatten ++ last).length ≤ maxProbationPackets
  low : ∀ e ∈ early.flatten ++ last, e < lastSeqnr
  near : ∀ a ∈ early.flatten ++ last, ∀ e ∈ early.flatten ++ last, 2 * a ≤ 2 * e + seqCycle
  reaches : ∀ m ∈ early.flatten ++ last, Reaches seqCycle m later.flatten
  small : ∀ e ∈ later.flatten, e < 2 ^ 32
  /-- No packet is lost, or comes behind a reading that has given a later one. -/
  whole : ((early.flatten ++ last) :: later).flatMap (fun batch => batch.toFinset.sort (· ≤ ·)) =
    List.range' b.seqnr.toNat packs.length

variable {comesFromThisTransmitter b packs own} {datagrams : List Datagram} {places : List Nat}

private theorem packetAt_ssrc (hnumbered : NumberedFrom b.ssrc b.seqnr packs) (e : Nat) :
    (packetAt b packs e).payloadType = 96 ∧ (packetAt b packs e).ssrc = b.ssrc := by
  rw [packetAt]
  dsimp only
  by_cases hin : e - b.seqnr.toNat < packs.length
  · rw [List.getD_eq_getElem?_getD, List.getElem?_eq_getElem hin,
        Option.getD_some]
    obtain ⟨htype, hssrc, -⟩ := hnumbered.getElem hin
    exact ⟨htype, hssrc⟩
  · rw [List.getD_eq_getElem?_getD, List.getElem?_eq_none (by omega), Option.getD_none]
    exact ⟨rfl, rfl⟩

private theorem csrcs_parsed (pack : RtpPacket) : pack.parsed.csrcs = [] := rfl

private theorem Arrives.packets (h : Arrives comesFromThisTransmitter b packs own datagrams places)
    (hnumbered : NumberedFrom b.ssrc b.seqnr packs) :
    packetsFrom b.ssrc (senderOf comesFromThisTransmitter own)
        (rtpPackets comesFromThisTransmitter datagrams) =
        places.map (fun e => (packetAt b packs e).parsed) ∧
      ∀ p ∈ rtpPackets comesFromThisTransmitter datagrams,
        b.ssrc ∉ p.1.csrcs ∧ (p.1.ssrc ≠ b.ssrc → p.1.payloadtype ≠ 96) := by
  induction h with
  | nil =>
      refine ⟨rfl, ?_⟩
      intro p hp
      cases hp
  | @packet datagrams places e h ih =>
      obtain ⟨hpackets, hothers⟩ := ih
      obtain ⟨htype, hssrc⟩ := packetAt_ssrc hnumbered e
      have hparsed : rtpPackets comesFromThisTransmitter
          (⟨(packetAt b packs e).bytes, own⟩ :: datagrams) =
          ((packetAt b packs e).parsed, senderOf comesFromThisTransmitter own) ::
            rtpPackets comesFromThisTransmitter datagrams := by
        rw [rtpPackets, List.filterMap_cons, parseRawPacket_bytes htype]
        rfl
      rw [hparsed]
      constructor
      · rw [packetsFrom, List.filter_cons_of_pos (by simpa [RtpPacket.parsed] using hssrc), List.map_cons,
          ← packetsFrom, hpackets, List.map_cons]
      · intro p hp
        rcases List.mem_cons.mp hp with rfl | hp
        · refine ⟨by rw [csrcs_parsed]; exact List.not_mem_nil, fun hne => absurd hssrc hne⟩
        · exact hothers p hp
  | @foreign datagrams places g hg h ih =>
      obtain ⟨hpackets, hothers⟩ := ih
      have hsplit : rtpPackets comesFromThisTransmitter (g :: datagrams) =
          rtpPackets comesFromThisTransmitter [g] ++
            rtpPackets comesFromThisTransmitter datagrams := by
        rw [rtpPackets, ← List.singleton_append, List.filterMap_append]
        rfl
      rw [hsplit]
      constructor
      · rw [packetsFrom, List.filter_append, List.map_append, ← packetsFrom, ← packetsFrom, hpackets]
        have hnone : packetsFrom b.ssrc (senderOf comesFromThisTransmitter own)
            (rtpPackets comesFromThisTransmitter [g]) = [] := by
          rw [packetsFrom, List.map_eq_nil_iff, List.filter_eq_nil_iff]
          intro p hp hboth
          rw [decide_eq_true_eq] at hboth
          exact (hg p hp).2.1 hboth.1 hboth.2
        rw [hnone, List.nil_append]
      · intro p hp
        rcases List.mem_append.mp hp with hp | hp
        · exact ⟨(hg p hp).1, (hg p hp).2.2⟩
        · exact hothers p hp

/-- The rounds of `recvLoopThread` over what the session gives. -/
def recvRounds (rounds : List (List (UInt32 × List ParsedPacket))) : List RecvRound :=
  rounds.map fun taken => ⟨true, taken.map fun source => source.2.map presented⟩

/-- The other sources hold nothing of payload type 96. -/
def Quiet (k k' : UInt32) (d : SourceData) : Prop :=
  k' ≠ k → ∀ p ∈ d.packetlist, p.payloadtype ≠ 96

variable {sources : Sources} {k : UInt32} {taken : List (UInt32 × List ParsedPacket)}

private theorem quiet_processRtpPacket {rtppack : ParsedPacket} (senderaddress : SenderAddress)
    (h : EachData (Quiet k) sources) (hother : rtppack.ssrc ≠ k → rtppack.payloadtype ≠ 96) :
    EachData (Quiet k) (sources.processRtpPacket rtppack senderaddress) := by
  apply h.processRtpPacket
  · intro k' _ p hp
    cases hp
  · exact fun _ _ hd => hd
  · intro d hd hne p hp
    rcases mem_processRtpPacket hp with hold | hnew
    · exact hd hne p hold
    · rw [hnew]
      exact hother hne

private theorem quiet_run {arrived : List (ParsedPacket × SenderAddress)}
    (h : EachData (Quiet k) sources)
    (hother : ∀ p ∈ arrived, p.1.ssrc ≠ k → p.1.payloadtype ≠ 96) :
    EachData (Quiet k)
      (arrived.foldl (fun (s : Sources) p => s.processRtpPacket p.1 p.2) sources) := by
  induction arrived generalizing sources with
  | nil => exact h
  | cons p arrived ih =>
      have hstep := quiet_processRtpPacket p.2 h (hother p (List.mem_cons_self ..))
      exact ih hstep fun q hq => hother q (List.mem_cons_of_mem _ hq)

/-- The datagram of the packet at a place. -/
def datagramAt (b : RtpPacketBuilder) (packs : List RtpPacket) (own : RtpIPv4Address) (e : Nat) :
    Datagram :=
  ⟨(packetAt b packs e).bytes, own⟩

/-- The datagrams of the packets in order, three before the first reading and the rest before the
second. -/
def inOrder (b : RtpPacketBuilder) (packs : List RtpPacket) (own : RtpIPv4Address) :
    List (List Datagram) :=
  [(List.range' b.seqnr.toNat 3).map (datagramAt b packs own),
    (List.range' (b.seqnr.toNat + 3) (packs.length - 3)).map (datagramAt b packs own)]

end GMProxy.TdRtp
