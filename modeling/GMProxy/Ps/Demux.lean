import GMProxy.Library.WhileLoop
import GMProxy.Library.CMemory

/-!
# The program-stream demultiplexer

`TdPs::parsingPs` and the unit helpers it calls, for `char` signed as on x86-64. A pointer into
`srcdata` is its offset, and a byte outside `srcdata` has no value. `int` subtraction wraps, as the
conversion from `size_t` back to `int` does. Allocation never fails.
-/

namespace GMProxy.TdPs

open WhileLoop CMemory

def h264FrameSizeMax : Nat := 1024 * 1024 * 2

def sizeofPackStartCode : Nat := 4
def sizeofLittelEndianSize : Nat := 2
def sizeofProgramStreamPackHeader : Nat := 14
def sizeofProgramStreamMap : Nat := 6
def sizeofProgramStreamE : Nat := 9

/-- The `length` of the `littel_endian_size` union whose two bytes are given. -/
def littelEndianSize (byte0 byte1 : UInt8) : Nat := byte0.toNat + 256 * byte1.toNat

/-- `PackLength` of the unit at `pack`, with its two bytes exchanged. -/
def packLength (srcdata : List UInt8) (pack : Nat) : Option Nat := do
  let byte0 ← srcdata[pack + 5]?
  let byte1 ← srcdata[pack + 4]?
  pure (littelEndianSize byte0 byte1)

/-- `ProgramStreamPackHeader`: the return value, `*NextPack` and `*leftlength`. -/
def programStreamPackHeader (srcdata : List UInt8) (pack : Nat) (length : Int) :
    Option (UInt32 × Nat × Int) := do
  let stuffinglen ← srcdata[pack + 13]?
  let packStuffingLength := (stuffinglen &&& 7).toNat
  let leftlength := toInt (length - sizeofProgramStreamPackHeader - packStuffingLength)
  let nextPack := pack + sizeofProgramStreamPackHeader + packStuffingLength
  if leftlength < 4 then pure (0, nextPack, leftlength)
  else pure (UInt32.ofInt leftlength, nextPack, leftlength)

/-- The four out-parameters of a unit helper. -/
structure UnitOut where
  nextPack : Nat
  leftlength : Int
  payloadData : Option Nat
  payloadDataLen : Int
deriving DecidableEq, Repr

/-- The common body of `ProgramStreamMap` and `ProgramShHead`. The caller passes its own cursor and
remaining length both by value and by reference, so an early return leaves `*NextPack` at `pack`
and, before the subtraction, `*leftlength` at `length`. -/
def skipUnit (srcdata : List UInt8) (pack : Nat) (length : Int) : Option (UInt32 × UnitOut) :=
  if toUnsigned length < sizeofProgramStreamMap then some (0, ⟨pack, length, none, 0⟩)
  else do
    let psmLength ← packLength srcdata pack
    let leftlength := toInt (length - psmLength - sizeofProgramStreamMap)
    if leftlength ≤ 0 then pure (0, ⟨pack, leftlength, none, 0⟩)
    else
      pure (UInt32.ofInt leftlength,
        ⟨pack + psmLength + sizeofProgramStreamMap, leftlength, none, 0⟩)

def programStreamMap (srcdata : List UInt8) (pack : Nat) (length : Int) :
    Option (UInt32 × UnitOut) :=
  skipUnit srcdata pack length

def programShHead (srcdata : List UInt8) (pack : Nat) (length : Int) :
    Option (UInt32 × UnitOut) :=
  skipUnit srcdata pack length

/-- `Pes`. The payload range is stored before the remaining length is tested. -/
def pes (srcdata : List UInt8) (pack : Nat) (length : Int) : Option (UInt32 × UnitOut) :=
  if toUnsigned length < sizeofProgramStreamE then some (0, ⟨pack, length, none, 0⟩)
  else do
    let pseLength ← packLength srcdata pack
    let stuffingLength ← srcdata[pack + 8]?
    let payloadDataLen : Int := pseLength - 2 - 1 - stuffingLength.toNat
    let payloadData :=
      if 0 < payloadDataLen then some (pack + sizeofProgramStreamE + stuffingLength.toNat)
      else none
    let leftlength :=
      toInt (length - pseLength - sizeofPackStartCode - sizeofLittelEndianSize)
    if leftlength < 0 then
      pure (UInt32.ofInt (-1),
        ⟨pack + sizeofPackStartCode, leftlength, payloadData, payloadDataLen⟩)
    else
      pure (UInt32.ofInt leftlength,
        ⟨pack + sizeofPackStartCode + sizeofLittelEndianSize + pseLength, leftlength, payloadData,
          payloadDataLen⟩)

/-- Whether the bytes at `pack` are `code`, compared from the first on until one differs. -/
def matchesAt (srcdata : List UInt8) (pack : Nat) : List UInt8 → Option Bool
  | [] => some true
  | b :: bs => do
      let c ← srcdata[pack]?
      if c = b then matchesAt srcdata (pack + 1) bs else pure false

def startCode (id : UInt8) : List UInt8 := [0x00, 0x00, 0x01, id]

/-- What `parsingPs` gives back: its return value, `*outData` (null or a block) and
`*outlength`. -/
structure PsResult where
  ret : UInt32
  outData : Option (List UInt8)
  outlength : Int
deriving DecidableEq, Repr

structure DemuxState where
  nextPack : Nat
  leftlength : Int
  outData : Option (List UInt8)
  outlength : Int
deriving DecidableEq, Repr

/-- The ways `parsingPs` ends: after the loop, on the error path inside it, or by reading a byte
outside `srcdata`. -/
inductive PsEnd where
  | returned (result : PsResult)
  | error (result : PsResult)
  | outOfBounds
deriving DecidableEq, Repr

/-- Append the payload of a unit to `*outData` unless it is empty or the frame would be too
large. -/
def appendPayload (srcdata : List UInt8) (s : DemuxState) (u : UnitOut) :
    Option (Option (List UInt8) × Int) :=
  if u.payloadDataLen ≠ 0 then
    if u.payloadDataLen + s.outlength < h264FrameSizeMax then do
      let payload ← memcpy srcdata u.payloadData (toSize u.payloadDataLen)
      pure (some ((s.outData.getD []).take s.outlength.toNat ++ payload),
        s.outlength + u.payloadDataLen)
    else some (s.outData, s.outlength)
  else some (s.outData, s.outlength)

/-- The guard and the body of the loop of `parsingPs`. -/
def parsingPsStep (srcdata : List UInt8) (s : DemuxState) :
    Option (Pass DemuxState PsEnd) :=
  if sizeofPackStartCode ≤ toUnsigned s.leftlength then do
    if ← matchesAt srcdata s.nextPack (startCode 0xE0) then
      let (ret, u) ← pes srcdata s.nextPack s.leftlength
      -- the return value is a `uint32_t`, for which this test cannot fail
      if 0 ≤ ret then
        let (outData, outlength) ← appendPayload srcdata s u
        pure (.again ⟨u.nextPack, u.leftlength, outData, outlength⟩)
      else
        pure (.leave (.error ⟨0, none, 0⟩))
    else if ← matchesAt srcdata s.nextPack (startCode 0xBB) then
      let (_, u) ← programShHead srcdata s.nextPack s.leftlength
      pure (.again ⟨u.nextPack, u.leftlength, s.outData, s.outlength⟩)
    else if ← matchesAt srcdata s.nextPack (startCode 0xBC) then
      let (_, u) ← programStreamMap srcdata s.nextPack s.leftlength
      pure (.again ⟨u.nextPack, u.leftlength, s.outData, s.outlength⟩)
    else
      -- the audio branch (C0, BD) and the branch for anything else both break
      pure (.leave (.returned ⟨UInt32.ofInt s.outlength, s.outData, s.outlength⟩))
  else
    pure (.leave (.returned ⟨UInt32.ofInt s.outlength, s.outData, s.outlength⟩))

def parsingPsPass (srcdata : List UInt8) (s : DemuxState) : Pass DemuxState PsEnd :=
  (parsingPsStep srcdata s).getD (.leave .outOfBounds)

/-- `parsingPs` up to its loop. -/
def parsingPsEntry (srcdata : List UInt8) (length : Int) : Option (Pass DemuxState PsEnd) := do
  let streamId ← srcdata[3]?
  if streamId ≠ 0xBA then
    pure (.leave (.returned ⟨UInt32.ofInt (-1), none, 0⟩))
  else
    let (ret, nextPack, leftlength) ← programStreamPackHeader srcdata 0 length
    if ret = 0 then pure (.leave (.returned ⟨0, none, 0⟩))
    else pure (.again ⟨nextPack, leftlength, none, 0⟩)

/-- `parsingPs` with `fuel` passes of its loop. -/
def parsingPs (srcdata : List UInt8) (length : Int) (fuel : Nat) : Pass DemuxState PsEnd :=
  match (parsingPsEntry srcdata length).getD (.leave .outOfBounds) with
  | .again s => passes (parsingPsPass srcdata) fuel s
  | .leave e => .leave e

end GMProxy.TdPs
