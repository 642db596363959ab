import GMProxy.Ps.BitsWrite
import GMProxy.Library.CMemory

/-!
# The program-stream multiplexer

`TdPs::packagingPs` and the header writers. `realloc` and `memcpy` act on byte lists; `fresh` is what
the allocator leaves in the bytes it adds. Lengths stay below the range of `int`.
-/

namespace GMProxy.TdPs

open CMemory BitString

def psHdrLen : Nat := 14
def sysHdrLen : Nat := 18
def psmHdrLen : Nat := 24
def pesHdrLen : Nat := 19
def pesPayloadMax : Nat := 64974

/-- `H264Stream_t`; the caller sets `size` to the number of bytes at `data`. -/
structure H264Stream where
  isIframe : Int
  pts : UInt64
  dts : UInt64
  size : UInt32
  data : List UInt8
  size_eq : size.toNat = data.length

/-- What `packagingPs` leaves in `*outData` and `*outlength`. -/
structure PsPack where
  outData : List UInt8
  outlength : Nat
deriving DecidableEq, Repr

/-- The common frame of the header writers: clear `hdrLen` bytes at `pData` and write the fields. -/
def writeHeader (pData : List UInt8) (hdrLen : Nat) (fields : List (Nat × UInt64)) : List UInt8 :=
  (bitsWriteAll ⟨List.replicate hdrLen 0 ++ pData.drop hdrLen, 0x80, hdrLen, 0⟩ fields).pData

def makePsHeader (pData : List UInt8) (s64Scr : UInt64) : List UInt8 :=
  let lScrExt := s64Scr % 100
  writeHeader pData psHdrLen
    [(32, 0x000001BA), (2, 1), (3, (s64Scr >>> 30) &&& 0x07), (1, 1),
      (15, (s64Scr >>> 15) &&& 0x7FFF), (1, 1), (15, s64Scr &&& 0x7fff), (1, 1),
      (9, lScrExt &&& 0x01ff), (1, 1), (22, 255 &&& 0x3fffff), (2, 3), (5, 0x1f), (3, 0)]

def makeSysHeader (pData : List UInt8) : List UInt8 :=
  writeHeader pData sysHdrLen
    [(32, 0x000001BB), (16, UInt64.ofNat (sysHdrLen - 6)), (1, 1), (22, 50000), (1, 1), (6, 1),
      (1, 0), (1, 1), (1, 1), (1, 1), (1, 1), (5, 1), (1, 0), (7, 0x7F),
      (8, 0xC0), (2, 3), (1, 0), (13, 512), (8, 0xE0), (2, 3), (1, 1), (13, 2048)]

def makePsmHeader (pData : List UInt8) : List UInt8 :=
  writeHeader pData psmHdrLen
    [(24, 0x000001), (8, 0xBC), (16, 18), (1, 1), (2, 3), (5, 0), (7, 0x7F), (1, 1), (16, 0),
      (16, 8), (8, 0x90), (8, 0xC0), (16, 0), (8, 0x1B), (8, 0xE0), (16, 0),
      (8, 0x45), (8, 0xBD), (8, 0xDC), (8, 0xF4)]

/-- The time stamps of a PES header. -/
def ptsDtsFields (pts dts : UInt64) : List (Nat × UInt64) :=
  [(4, 3), (3, (pts >>> 30) &&& 0x07), (1, 1), (15, (pts >>> 15) &&& 0x7FFF), (1, 1),
    (15, pts &&& 0x7FFF), (1, 1),
    (4, 1), (3, (dts >>> 30) &&& 0x07), (1, 1), (15, (dts >>> 15) &&& 0x7FFF), (1, 1),
    (15, dts &&& 0x7FFF), (1, 1)]

def makePesHeader (pData : List UInt8) (streamId payloadLen : Int) (pts dts : UInt64) :
    List UInt8 :=
  writeHeader pData pesHdrLen
    ([(24, 0x000001), (8, UInt64.ofInt streamId), (16, UInt64.ofInt (payloadLen + 13)),
      (2, 2), (2, 0), (1, 0), (1, 0), (1, 0), (1, 0),
      (1, 1), (1, 1), (1, 0), (1, 0), (1, 0), (1, 0), (1, 0), (1, 0), (8, 10)] ++
      ptsDtsFields pts dts)

/-- Run a writer on the bytes from `offset` on. -/
def writeAt (block : List UInt8) (offset : Nat) (write : List UInt8 → List UInt8) : List UInt8 :=
  block.take offset ++ write (block.drop offset)

variable (fresh : Nat → UInt8) (stream : H264Stream)

/-- One PES packet with `payloadLen` bytes of the frame from `dataPtrOffset` on. -/
def appendPes (out : PsPack) (dataPtrOffset : Nat) (payloadLen : Int) : Option PsPack := do
  let outData := realloc fresh out.outData (toSize (out.outlength + pesHdrLen + payloadLen))
  let outData := writeAt outData out.outlength fun pData =>
    makePesHeader pData 0xE0 payloadLen stream.pts stream.dts
  let outlength := out.outlength + pesHdrLen
  let chunk ← memcpy stream.data (some dataPtrOffset) (toSize payloadLen)
  pure ⟨store outData outlength chunk, outlength + payloadLen.toNat⟩

/-- The loop of `packagingPs` and the packet behind it. -/
def packLoop (remainSize : Int) (dataPtrOffset : Nat) (out : PsPack) : Option PsPack :=
  if pesPayloadMax < remainSize then do
    let out ← appendPes fresh stream out dataPtrOffset pesPayloadMax
    -- the offset is set to the packet size, not advanced by it
    packLoop (remainSize - pesPayloadMax) pesPayloadMax out
  else appendPes fresh stream out dataPtrOffset remainSize
termination_by remainSize.toNat
decreasing_by
  simp only [pesPayloadMax] at *
  omega

/-- The system header and the stream map of an I-frame. -/
def appendSystem (out : PsPack) : PsPack :=
  let outData := realloc fresh out.outData (out.outlength + sysHdrLen + psmHdrLen)
  let outData := writeAt outData out.outlength makeSysHeader
  let outlength := out.outlength + sysHdrLen
  let outData := writeAt outData outlength makePsmHeader
  ⟨outData, outlength + psmHdrLen⟩

def packagingPs : Option PsPack :=
  let remainSize := toInt stream.size.toNat
  let outData := realloc fresh [] psHdrLen
  let outData := writeAt outData 0 fun pData => makePsHeader pData stream.pts
  let out : PsPack := ⟨outData, psHdrLen⟩
  let out := if stream.isIframe ≠ 0 then appendSystem fresh out else out
  packLoop fresh stream remainSize 0 out

end GMProxy.TdPs
