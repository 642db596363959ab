import GMProxy.Library.BigEndian

/-!
# RTP packets on the wire

`RTPPacket::BuildPacket`, `RTPPacket::ParseRawPacket` and `RTPPacket::GetCSRC` of the RTP library, and
the packet format between them: `ParseRawPacket` accepts the packets of the format and no others.
-/

namespace GMProxy.Jrtplib

open BigEndian

/-- `RTPHeader`, with the fields in host byte order. -/
structure RtpHeader where
  version : BitVec 2
  padding : Bool
  extension : Bool
  csrccount : BitVec 4
  marker : Bool
  payloadtype : BitVec 7
  sequencenumber : UInt16
  timestamp : UInt32
  ssrc : UInt32
deriving DecidableEq

def sizeofRtpHeader : Nat := 12
def sizeofRtpExtensionHeader : Nat := 4
def rtpVersion : BitVec 2 := 2
def rtpMaxcsrcs : Nat := 15

namespace RtpHeader

def encode (h : RtpHeader) : List UInt8 :=
  [UInt8.ofNat (64 * h.version.toNat + 32 * h.padding.toNat + 16 * h.extension.toNat +
      h.csrccount.toNat),
    UInt8.ofNat (128 * h.marker.toNat + h.payloadtype.toNat)] ++
  bytesOf 2 h.sequencenumber.toNat ++ bytesOf 4 h.timestamp.toNat ++ bytesOf 4 h.ssrc.toNat

/-- The header at the front of a block. -/
def decode (bytes : List UInt8) : RtpHeader :=
  let first := (bytes.getD 0 0).toNat
  let second := (bytes.getD 1 0).toNat
  { version := BitVec.ofNat 2 (first / 64)
    padding := first / 32 % 2 == 1
    extension := first / 16 % 2 == 1
    csrccount := BitVec.ofNat 4 first
    marker := second / 128 == 1
    payloadtype := BitVec.ofNat 7 second
    sequencenumber := UInt16.ofNat (valueOf ((bytes.drop 2).take 2))
    timestamp := UInt32.ofNat (valueOf ((bytes.drop 4).take 4))
    ssrc := UInt32.ofNat (valueOf ((bytes.drop 8).take 4)) }

end RtpHeader

/-- A header extension: its id and whole words of data. -/
structure RtpExtension where
  extid : UInt16
  numwords : UInt16
  data : List UInt8
  length_eq : data.length = 4 * numwords.toNat
deriving DecidableEq

def RtpExtension.encode (e : RtpExtension) : List UInt8 :=
  bytesOf 2 e.extid.toNat ++ bytesOf 2 e.numwords.toNat ++ e.data

def extensionBytes (extension : Option RtpExtension) : List UInt8 :=
  (extension.map RtpExtension.encode).getD []

def csrcBytes (csrcs : List UInt32) : List UInt8 := csrcs.flatMap fun csrc => bytesOf 4 csrc.toNat

inductive RtpError where
  | tooManyCsrcs
  | badPayloadType
  | dataExceedsMaxSize
deriving DecidableEq, Repr

/-- The arguments of `BuildPacket` besides the buffer. -/
structure BuildArgs where
  payloadtype : UInt8
  payloaddata : List UInt8
  seqnr : UInt16
  timestamp : UInt32
  ssrc : UInt32
  gotmarker : Bool
  csrcs : List UInt32
  extension : Option RtpExtension

def BuildArgs.header (p : BuildArgs) : RtpHeader where
  version := rtpVersion
  padding := false
  extension := p.extension.isSome
  csrccount := BitVec.ofNat 4 p.csrcs.length
  marker := p.gotmarker
  payloadtype := BitVec.ofNat 7 p.payloadtype.toNat
  sequencenumber := p.seqnr
  timestamp := p.timestamp
  ssrc := p.ssrc

def BuildArgs.packetlength (p : BuildArgs) : Nat :=
  sizeofRtpHeader + 4 * p.csrcs.length +
    (match p.extension with
      | some e => sizeofRtpExtensionHeader + 4 * e.numwords.toNat
      | none => 0) + p.payloaddata.length

/-- `BuildPacket`; a `maxsize` of 0 is no limit. -/
def buildPacket (p : BuildArgs) (maxsize : Nat) : Except RtpError (List UInt8) :=
  if rtpMaxcsrcs < p.csrcs.length then .error .tooManyCsrcs
  else if 127 < p.payloadtype then .error .badPayloadType
  else if p.payloadtype = 72 ∨ p.payloadtype = 73 then .error .badPayloadType
  else if 0 < maxsize ∧ maxsize < p.packetlength then .error .dataExceedsMaxSize
  else .ok (p.header.encode ++ csrcBytes p.csrcs ++ extensionBytes p.extension ++ p.payloaddata)

/-- The members that `ParseRawPacket` fills in. -/
structure ParsedPacket where
  hasmarker : Bool
  numcsrcs : Nat
  payloadtype : UInt8
  extseqnr : UInt32
  timestamp : UInt32
  ssrc : UInt32
  extension : Option (UInt16 × List UInt8)
  packet : List UInt8
  payload : List UInt8
deriving DecidableEq

/-- A read behind the end of the packet has no defined value. -/
inductive RawResult where
  | outOfBounds
  | invalidPacket
  | parsed (p : ParsedPacket)
deriving DecidableEq

/-- What is taken from the header extension at `offset`: its id and data, and their size. -/
def extensionAt (bytes : List UInt8) (offset : Nat) : (UInt16 × List UInt8) × Nat :=
  let exthdrlen := 4 * valueOf ((bytes.drop (offset + 2)).take 2)
  ((UInt16.ofNat (valueOf ((bytes.drop offset).take 2)),
      (bytes.drop (offset + sizeofRtpExtensionHeader)).take exthdrlen),
    sizeofRtpExtensionHeader + exthdrlen)

/-- The lengths are `int`s: a packet stays below 2^31 bytes. -/
def parseRawPacket (isRtp : Bool) (packetbytes : List UInt8) : RawResult :=
  if isRtp = false then .invalidPacket
  else if packetbytes.length < sizeofRtpHeader then .invalidPacket
  else
    let rtpheader := RtpHeader.decode packetbytes
    if rtpheader.version ≠ rtpVersion then .invalidPacket
    else if rtpheader.marker ∧ (rtpheader.payloadtype = 72 ∨ rtpheader.payloadtype = 73) then
      .invalidPacket
    else
      let payloadoffset := sizeofRtpHeader + 4 * rtpheader.csrccount.toNat
      let numpadbytes := if rtpheader.padding then (packetbytes.getLastD 0).toNat else 0
      if rtpheader.padding ∧ numpadbytes = 0 then .invalidPacket
      -- The length of the extension is read before it is known to lie inside the packet.
      else if rtpheader.extension ∧
          packetbytes.length < payloadoffset + sizeofRtpExtensionHeader then .outOfBounds
      else
        let extension :=
          if rtpheader.extension then some (extensionAt packetbytes payloadoffset) else none
        let payloadoffset := payloadoffset + (extension.map Prod.snd).getD 0
        if packetbytes.length < numpadbytes + payloadoffset then .invalidPacket
        else .parsed
          { hasmarker := rtpheader.marker
            numcsrcs := rtpheader.csrccount.toNat
            payloadtype := UInt8.ofNat rtpheader.payloadtype.toNat
            extseqnr := rtpheader.sequencenumber.toUInt32
            timestamp := rtpheader.timestamp
            ssrc := rtpheader.ssrc
            extension := extension.map Prod.fst
            packet := packetbytes
            payload := (packetbytes.drop payloadoffset).take
              (packetbytes.length - numpadbytes - payloadoffset) }

def ParsedPacket.getCsrc (p : ParsedPacket) (num : Nat) : UInt32 :=
  if p.numcsrcs ≤ num then 0
  else UInt32.ofNat (valueOf ((p.packet.drop (sizeofRtpHeader + 4 * num)).take 4))

end GMProxy.Jrtplib
