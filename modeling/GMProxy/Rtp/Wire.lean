import GMProxy.Rtp.Fragments
import GMProxy.Jrtplib.WireFormat
import GMProxy.Jrtplib.SourceIsolation

/-!
# The packets of a sender on the wire

`RTPPacketBuilder::PrivateBuildPacket` as `sendData` uses it: the bytes of its packets, what the
session of the other side makes of them, and their sequence numbers.
-/

namespace GMProxy.TdRtp

open Jrtplib

/-- The arguments of `BuildPacket`; the builder has no contributing sources and no extension. -/
def RtpPacket.args (pack : RtpPacket) : BuildArgs where
  payloadtype := pack.payloadType
  payloaddata := pack.payload
  seqnr := pack.sequenceNumber
  timestamp := pack.timestamp
  ssrc := pack.ssrc
  gotmarker := pack.marker
  csrcs := []
  extension := none

/-- What the loop of `recvLoopThread` reads from a packet. -/
def presented (p : ParsedPacket) : RtpPacket where
  payloadType := p.payloadtype
  marker := p.hasmarker
  sequenceNumber := p.extseqnr.toUInt16
  timestamp := p.timestamp
  ssrc := p.ssrc
  payload := p.payload

def RtpPacket.bytes (pack : RtpPacket) : List UInt8 := pack.args.header.encode ++ pack.payload

/-- The packet as the other side parses it. -/
def RtpPacket.parsed (pack : RtpPacket) : ParsedPacket where
  hasmarker := pack.marker
  numcsrcs := 0
  payloadtype := pack.payloadType
  extseqnr := pack.sequenceNumber.toUInt32
  timestamp := pack.timestamp
  ssrc := pack.ssrc
  extension := none
  packet := pack.bytes
  payload := pack.payload

variable {pack : RtpPacket}

theorem buildPacket_bytes (htype : pack.payloadType = 96) (hpayload : pack.payload.length ≤ 1280) :
    buildPacket pack.args rtpDefaultPacketSize = .ok pack.bytes := by
  have hlength : ¬ (0 < rtpDefaultPacketSize ∧ rtpDefaultPacketSize < pack.args.packetlength) := by
    simp only [BuildArgs.packetlength, RtpPacket.args, List.length_nil, rtpDefaultPacketSize,
      Jrtplib.sizeofRtpHeader]
    omega
  have hvalid : ¬ (127 < pack.args.payloadtype) ∧
      ¬ (pack.args.payloadtype = 72 ∨ pack.args.payloadtype = 73) := by
    rw [show pack.args.payloadtype = 96 from htype]
    decide
  have hcsrcs : ¬ rtpMaxcsrcs < pack.args.csrcs.length := Nat.not_lt_zero 15
  unfold buildPacket
  rw [if_neg hcsrcs, if_neg hvalid.1, if_neg hvalid.2, if_neg hlength]
  simp [RtpPacket.bytes, RtpPacket.args, csrcBytes, extensionBytes]

theorem parseRawPacket_bytes (htype : pack.payloadType = 96) :
    parseRawPacket true pack.bytes = .parsed pack.parsed := by
  have hparsed := parseRawPacket_encode
    ⟨pack.marker, 96, pack.sequenceNumber, pack.timestamp, pack.ssrc, [], none, pack.payload, [],
      by decide, fun _ => by decide, fun b hb => by cases hb⟩
  have hbytes : pack.bytes = WirePacket.encode
      ⟨pack.marker, 96, pack.sequenceNumber, pack.timestamp, pack.ssrc, [], none, pack.payload, [],
        by decide, fun _ => by decide, fun b hb => by cases hb⟩ := by
    simp [WirePacket.encode, WirePacket.header, RtpPacket.bytes, BuildArgs.header, RtpPacket.args,
      csrcBytes, extensionBytes, htype]
  rw [hbytes, hparsed, WirePacket.parsed, RtpPacket.parsed, hbytes, htype]
  rfl

theorem presented_parsed (pack : RtpPacket) : presented pack.parsed = pack := by
  rw [presented, RtpPacket.parsed]
  dsimp only
  rw [UInt16.toUInt16_toUInt32]

/-- Packets of one source with consecutive sequence numbers. -/
def NumberedFrom (ssrc : UInt32) : UInt16 → List RtpPacket → Prop
  | _, [] => True
  | seqnr, pack :: packs =>
      (pack.payloadType = 96 ∧ pack.ssrc = ssrc ∧ pack.sequenceNumber = seqnr) ∧
        NumberedFrom ssrc (seqnr + 1) packs

variable {ssrc : UInt32} {seqnr : UInt16} {packs packs' : List RtpPacket} {b : RtpPacketBuilder}
  {data : List UInt8}

private theorem advance_add (seqnr : UInt16) (n : Nat) :
    seqnr + 1 + UInt16.ofNat n = seqnr + UInt16.ofNat (n + 1) := by
  rw [UInt16.ofNat_add, UInt16.add_comm (UInt16.ofNat n), UInt16.add_assoc]
  rfl

theorem numberedFrom_append : NumberedFrom ssrc seqnr (packs ++ packs') ↔
    NumberedFrom ssrc seqnr packs ∧
      NumberedFrom ssrc (seqnr + UInt16.ofNat packs.length) packs' := by
  induction packs generalizing seqnr with
  | nil =>
      rw [List.nil_append, List.length_nil, show UInt16.ofNat 0 = 0 from rfl, UInt16.add_zero]
      exact (and_iff_right trivial).symm
  | cons pack packs ih =>
      rw [List.cons_append, NumberedFrom, ih, advance_add, List.length_cons, NumberedFrom]
      exact and_assoc.symm

theorem NumberedFrom.getElem (h : NumberedFrom ssrc seqnr packs) {i : Nat} (hi : i < packs.length) :
    packs[i].payloadType = 96 ∧ packs[i].ssrc = ssrc ∧
      packs[i].sequenceNumber = seqnr + UInt16.ofNat i := by
  induction packs generalizing seqnr i with
  | nil => cases hi
  | cons pack packs ih =>
      cases i with
      | zero =>
          rw [show UInt16.ofNat 0 = 0 from rfl, UInt16.add_zero]
          exact h.1
      | succ i =>
          rw [← advance_add]
          exact ih h.2 (Nat.lt_of_succ_lt_succ hi)

/-- The packets are numbered from the builder's number on, and the builder goes on behind them. -/
structure Continues (b : RtpPacketBuilder) (sent : RtpPacketBuilder × List RtpPacket) : Prop where
  ssrc : sent.1.ssrc = b.ssrc
  seqnr : sent.1.seqnr = b.seqnr + UInt16.ofNat sent.2.length
  numbered : NumberedFrom b.ssrc b.seqnr sent.2

private theorem sendPacket_continues (b : RtpPacketBuilder) (data : List UInt8) (offset len : Nat)
    (mark : Bool) : Continues b (sendPacket b data offset len 96 mark 10) := by
  unfold sendPacket
  split
  · exact ⟨rfl, (UInt16.add_zero b.seqnr).symm, trivial⟩
  · exact ⟨rfl, rfl, ⟨rfl, rfl, rfl⟩, trivial⟩

private theorem Continues.trans {b b' b'' : RtpPacketBuilder} (h : Continues b (b', packs))
    (h' : Continues b' (b'', packs')) : Continues b (b'', packs ++ packs') := by
  refine ⟨h'.ssrc.trans h.ssrc, ?_, ?_⟩
  · rw [h'.seqnr, h.seqnr, List.length_append, UInt16.ofNat_add, UInt16.add_assoc]
  · rw [numberedFrom_append, ← h.seqnr, ← h.ssrc]
    refine ⟨?_, h'.numbered⟩
    rw [h.ssrc]
    exact h.numbered

theorem sendData_continues (b : RtpPacketBuilder) (data : List UInt8) :
    Continues b (sendData b data) := by
  suffices hloop : ∀ (leftsize : Int) (offset : Nat), Continues b (sendLoop b data leftsize offset) from
    hloop _ 0
  intro leftsize offset
  induction b, leftsize, offset using sendLoop.induct data with
  | case1 b leftsize offset hmore b' sent hsend b'' rest hrest ih =>
      have hfirst := sendPacket_continues b data offset 1280 false
      rw [hsend] at hfirst
      rw [hrest] at ih
      rw [sendLoop, if_pos hmore, hsend]
      simp only [hrest]
      exact hfirst.trans ih
  | case2 b leftsize offset hlast =>
      rw [sendLoop, if_neg hlast]
      exact sendPacket_continues b data offset _ true

/-- `BuildPacket` accepts the packets of `sendData`, and what it builds is read as the same packet. -/
theorem sendData_wire (h : pack ∈ (sendData b data).2) :
    buildPacket pack.args rtpDefaultPacketSize = .ok pack.bytes ∧
      parseRawPacket true pack.bytes = .parsed pack.parsed ∧ presented pack.parsed = pack := by
  have htype : pack.payloadType = 96 := by
    obtain ⟨i, hi, rfl⟩ := List.getElem_of_mem h
    exact ((sendData_continues b data).numbered.getElem hi).1
  have hbuilt := buildPacket_bytes htype (sendData_payload_le h)
  have hparsed := parseRawPacket_bytes htype
  exact ⟨hbuilt, hparsed, presented_parsed pack⟩

end GMProxy.TdRtp
