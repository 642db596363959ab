import GMProxy.Rtp.Transport
import GMProxy.Rtp.SendLoop
import GMProxy.Ps.RoundTrip

/-!
# From the encoder to the decoder

The frames that `sendLoopThread` of one side packages and sends are those that `parsingPs` gives
`recvLoopThread` of the other side, whatever the order in which their packets arrive.
-/

namespace GMProxy.TdRtp

open Jrtplib TdPs KeyTable

variable {fresh : Nat → UInt8} {s : SendState} {passes : List SendPass} {sent : List SentFrame}
  {comesFromThisTransmitter : RtpIPv4Address → Bool} {own : RtpIPv4Address}

/-- The frame is sent as a pack from which `parsingPs` takes the coded frame. -/
structure Carries (frame : SentFrame) (out : CodecOut) : Prop where
  outlength : frame.pack.outlength = frame.pack.outData.length
  fits : 1 ≤ frame.pack.outData.length ∧ frame.pack.outData.length ≤ 2 ^ 31 - 1
  parses : ∃ fuel result,
    parsingPs frame.pack.outData frame.pack.outlength fuel = .leave (.returned result) ∧
      result.outlength = out.data.length ∧ result.outData.getD [] = out.data

end GMProxy.TdRtp
