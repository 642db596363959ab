import GMProxy.Library.KeyTable
import GMProxy.Jrtplib.Startup

/-!
# The source table

`RTPSources::ProcessRawPacket` and `RTPSources::ProcessRTPPacket` for RTP packets, with the address
that a source is bound to. What a source has received depends on nothing but the packets of its own
number from the first address that used the number.
-/

namespace GMProxy.Jrtplib

open KeyTable

structure RtpIPv4Address where
  ip : UInt32
  port : UInt16
deriving DecidableEq, Repr

/-- The sender of a packet; `none` for a packet of the own session. -/
abbrev SenderAddress := Option RtpIPv4Address

def RtpIPv4Address.isSameAddress (a : RtpIPv4Address) : SenderAddress → Bool
  | none => false
  | some b => b.ip = a.ip && b.port = a.port

def RtpIPv4Address.isFromSameHost (a : RtpIPv4Address) : SenderAddress → Bool
  | none => false
  | some b => b.ip = a.ip

/-- An entry of the source table; an address that is not set is `none`. -/
structure SourceEntry where
  data : SourceData
  rtpaddr : Option SenderAddress := none
  rtcpaddr : Option SenderAddress := none
  iscsrc : Bool := false
deriving DecidableEq

/-- The sources in the order in which they were created. -/
abbrev Sources := List (UInt32 × SourceEntry)

namespace SourceEntry

/-- A source that `ObtainSourceDataInstance` creates. -/
def created : SourceEntry := { data := .fresh }

/-- `CheckCollision` for an RTP packet: the source, and whether the packet collides with it. -/
def checkCollision (e : SourceEntry) (senderaddress : SenderAddress) : SourceEntry × Bool :=
  match e.rtpaddr with
  | none =>
      match e.rtcpaddr with
      | none => ({ e with rtpaddr := some senderaddress }, false)
      | some none =>
          if senderaddress ≠ none then (e, true)
          else ({ e with rtpaddr := some senderaddress }, false)
      | some (some other) =>
          if other.isFromSameHost senderaddress = false then (e, true)
          else ({ e with rtpaddr := some senderaddress }, false)
  | some none => (e, senderaddress ≠ none)
  | some (some addr) => (e, addr.isSameAddress senderaddress = false)

/-- `SetCSRC`. -/
def setCsrc (e : SourceEntry) : SourceEntry :=
  { e with data := { e.data with validated := true }, iscsrc := true }

def processRtpPacket (e : SourceEntry) (rtppack : ParsedPacket) : SourceEntry :=
  { e with data := (e.data.processRtpPacket rtppack).1 }

end SourceEntry

/-- The contributing sources of a packet. -/
def ParsedPacket.csrcs (p : ParsedPacket) : List UInt32 :=
  (List.range (min p.numcsrcs rtpMaxcsrcs)).map p.getCsrc

namespace Sources

/-- The table of a new session: `CreateOwnSSRC`. -/
def ofOwnSsrc (ssrc : UInt32) : Sources :=
  [(ssrc, { data := { SourceData.fresh with validated := true }
            rtpaddr := some none
            rtcpaddr := some none })]

/-- What is done for a contributing source of a packet. -/
def processCsrc (senderaddress : SenderAddress) (sources : Sources) (csrc : UInt32) : Sources :=
  match find csrc sources with
  | none => sources ++ [(csrc, SourceEntry.created.setCsrc)]
  | some csrcdat =>
      let (checked, collision) := csrcdat.checkCollision senderaddress
      modify csrc (fun _ => if collision then checked else checked.setCsrc) sources

/-- The part of `ProcessRTPPacket` behind the check for a collision. -/
def processChecked (sources : Sources) (rtppack : ParsedPacket) (senderaddress : SenderAddress)
    (srcdat : SourceEntry) : Sources :=
  let processed := srcdat.processRtpPacket rtppack
  let sources := modify rtppack.ssrc (fun _ => processed) sources
  if processed.data.validated then rtppack.csrcs.foldl (processCsrc senderaddress) sources
  else sources

def processRtpPacket (sources : Sources) (rtppack : ParsedPacket) (senderaddress : SenderAddress) :
    Sources :=
  match find rtppack.ssrc sources with
  | none =>
      let srcdat := { SourceEntry.created with rtpaddr := some senderaddress }
      processChecked (sources ++ [(rtppack.ssrc, srcdat)]) rtppack senderaddress srcdat
  | some srcdat =>
      let (checked, collision) := srcdat.checkCollision senderaddress
      if collision then modify rtppack.ssrc (fun _ => checked) sources
      else processChecked sources rtppack senderaddress checked

end Sources

/-- A datagram on the RTP port with the address it comes from. -/
structure Datagram where
  data : List UInt8
  senderaddress : RtpIPv4Address

/-- The sender that `ProcessRTPPacket` is given; `comesFromThisTransmitter` tells own packets, which
a session of `TdRtp` accepts. -/
def senderOf (comesFromThisTransmitter : RtpIPv4Address → Bool) (a : RtpIPv4Address) : SenderAddress :=
  if comesFromThisTransmitter a then none else some a

variable (comesFromThisTransmitter : RtpIPv4Address → Bool)

namespace Sources

/-- `ProcessRawPacket` on the RTP port. A packet whose extension header is cut off is rejected too:
whatever is read behind its end, its payload has a negative length. -/
def processRawPacket (sources : Sources) (rawpack : Datagram) : Sources :=
  match parseRawPacket true rawpack.data with
  | .parsed rtppack =>
      processRtpPacket sources rtppack (senderOf comesFromThisTransmitter rawpack.senderaddress)
  | _ => sources

/-- `GotoFirstSourceWithData`, `GetNextPacket` and `GotoNextSourceWithData` until there are no
packets: the packets of each source that has some. -/
def takeData (sources : Sources) : List (UInt32 × List ParsedPacket) × Sources :=
  ((sources.map fun source => (source.1, source.2.data.takePackets.1)).filter fun taken =>
      taken.2 ≠ [],
    sources.map fun source => (source.1, { source.2 with data := source.2.data.takePackets.2 }))

/-- What a session gives in its rounds, each behind the datagrams that arrived since the last one. -/
def rounds (sources : Sources) : List (List Datagram) → List (List (UInt32 × List ParsedPacket))
  | [] => []
  | batch :: batches =>
      let sources := batch.foldl (processRawPacket comesFromThisTransmitter) sources
      sources.takeData.1 :: rounds sources.takeData.2 batches

end Sources

end GMProxy.Jrtplib
