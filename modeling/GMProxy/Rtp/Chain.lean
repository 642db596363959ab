import GMProxy.Rtp.EndToEnd
import GMProxy.Rtp.Relay

/-!
# Camera, channel and receiver

A channel between two deliveries: what its codec is given are the frames of the camera, and what the
codec makes of them is what the receiver behind the channel gets.
-/

namespace GMProxy.TdRtp

open Jrtplib TdPs

/-- The way of a sender's packets to the receiver of a new session. -/
structure Hop (b : RtpPacketBuilder) (packs : List RtpPacket) where
  ssrc : UInt32
  other : b.ssrc ≠ ssrc
  comesFromThisTransmitter : RtpIPv4Address → Bool
  own : RtpIPv4Address
  delivery : Delivery comesFromThisTransmitter b packs own

/-- The rounds of the receiver. -/
def Hop.rounds {b : RtpPacketBuilder} {packs : List RtpPacket} (hop : Hop b packs) : List RecvRound :=
  recvRounds ((Sources.ofOwnSsrc hop.ssrc).rounds hop.comesFromThisTransmitter hop.delivery.datagrams)

section Channel

variable {fresh freshRecv freshSend : Nat → UInt8} {camera send : SendState}
  {passes : List SendPass} {sent : List SentFrame} {events : List RelayEvent} {r : Relay}

end Channel

end GMProxy.TdRtp
