import GMProxy.Library.CMemory
import GMProxy.Library.Transducer

/-!
# Sending and receiving RTP packets

`TdRtp::sendData` over the packet builder of the RTP library, and `TdRtp::recvLoopThread` up to its
calls of `parsingPs`.
-/

namespace GMProxy.TdRtp

open CMemory Transducer

/-- What an `RTPPacket` carries. -/
structure RtpPacket where
  payloadType : UInt8
  marker : Bool
  sequenceNumber : UInt16
  timestamp : UInt32
  ssrc : UInt32
  payload : List UInt8
deriving DecidableEq, Repr

structure RtpPacketBuilder where
  ssrc : UInt32
  seqnr : UInt16
  timestamp : UInt32
deriving DecidableEq, Repr

def sizeofRtpHeader : Nat := 12
def rtpDefaultPacketSize : Nat := 1400

/-- `SendPacket` of `len` bytes at `offset`; a packet above the size limit is refused. -/
def sendPacket (b : RtpPacketBuilder) (data : List UInt8) (offset len : Nat) (pt : UInt8)
    (mark : Bool) (timestampinc : UInt32) : RtpPacketBuilder × List RtpPacket :=
  if rtpDefaultPacketSize < sizeofRtpHeader + len then (b, [])
  else
    ({ b with seqnr := b.seqnr + 1, timestamp := b.timestamp + timestampinc },
      [⟨pt, mark, b.seqnr, b.timestamp, b.ssrc, (data.drop offset).take len⟩])

/-- The loop of `sendData` and the packet behind it. -/
def sendLoop (b : RtpPacketBuilder) (data : List UInt8) (leftsize : Int) (dataPtrOffset : Nat) :
    RtpPacketBuilder × List RtpPacket :=
  if 1280 < leftsize then
    let (b, sent) := sendPacket b data dataPtrOffset 1280 96 false 10
    let (b, rest) := sendLoop b data (leftsize - 1280) (dataPtrOffset + 1280)
    (b, sent ++ rest)
  else sendPacket b data dataPtrOffset (toSize leftsize) 96 true 10
termination_by leftsize.toNat
decreasing_by omega

def sendData (b : RtpPacketBuilder) (data : List UInt8) : RtpPacketBuilder × List RtpPacket :=
  sendLoop b data (toInt data.length) 0

/-- The packets of the frames sent one after the other, frame by frame. -/
def sendFrames (b : RtpPacketBuilder) : List (List UInt8) → List (List RtpPacket)
  | [] => []
  | frame :: frames => (sendData b frame).2 :: sendFrames (sendData b frame).1 frames

/-- `rtpOut` and `pos`, an `int`: a group of packets stays below 2^31 bytes. -/
structure RecvState where
  rtpOut : Option (List UInt8)
  pos : Nat
deriving DecidableEq, Repr

/-- The arguments of a call of `parsingPs`; `length` is what `pos` was. -/
structure ParseCall where
  srcdata : List UInt8
  length : Nat
deriving DecidableEq, Repr

variable (fresh : Nat → UInt8)

/-- The body of the packet loop. -/
def recvPacket (s : RecvState) (pack : RtpPacket) : RecvState × List ParseCall :=
  let loaddata := pack.payload
  let len := pack.payload.length
  if pack.payloadType = 96 then
    if pack.marker then
      let rtpOut := store (realloc fresh (s.rtpOut.getD []) (s.pos + len)) s.pos loaddata
      (⟨none, 0⟩, [⟨rtpOut, s.pos + len⟩])
    else
      let rtpOut := store (realloc fresh (s.rtpOut.getD []) (s.pos + len)) s.pos loaddata
      (⟨some rtpOut, s.pos + len⟩, [])
  else (s, [])

/-- The packets of one source, as long as `GetNextPacket` gives one. -/
def recvSource : RecvState → List RtpPacket → RecvState × List ParseCall :=
  run (recvPacket fresh)

/-- One pass of the outer loop: whether data has come, and the packets that the sources then give,
in the order of `GotoFirstSourceWithData` and `GotoNextSourceWithData`. -/
structure RecvRound where
  isComing : Bool
  sources : List (List RtpPacket)

def recvRound (s : RecvState) (round : RecvRound) : RecvState × List ParseCall :=
  if round.isComing then run (recvSource fresh) s round.sources else (s, [])

/-- The calls of `parsingPs` in a run of `recvLoopThread`. Clearing `isRun` ends the run behind any
packet, so the rounds are those packets that were taken before. -/
def recvLoopThread (rounds : List RecvRound) : List ParseCall :=
  (run (recvRound fresh) ⟨none, 0⟩ rounds).2

/-- The packets taken from the session in a run, in their order. -/
def deliveries (rounds : List RecvRound) : List RtpPacket :=
  rounds.flatMap fun round => if round.isComing then round.sources.flatten else []

end GMProxy.TdRtp
