import GMProxy.Ps.Demux

/-!
# The grammar of a program-stream pack

What a well-formed pack is, independently of the parser: a pack header followed by complete units.
The lengths are part of the types, so every value has an encoding.
-/

namespace GMProxy.TdPs

/-- A 16-bit field, high byte first. -/
def be16 (n : Nat) : List UInt8 := [UInt8.ofNat (n / 256), UInt8.ofNat n]

/-- A pack header of 14 bytes with its stuffing. -/
structure PackHeader where
  fixed : List UInt8
  stuffing : List UInt8
  fixed_length : fixed.length = sizeofProgramStreamPackHeader
  streamId : fixed[3]? = some 0xBA
  stuffing_length : (fixed.getD 13 0 &&& 7).toNat = stuffing.length

def PackHeader.encode (h : PackHeader) : List UInt8 := h.fixed ++ h.stuffing

/-- A complete unit. The header of a video packet is what `header_data_length` counts. -/
inductive PsUnit where
  | systemHeader (body : List UInt8) (hlen : body.length < 2 ^ 16)
  | streamMap (body : List UInt8) (hlen : body.length < 2 ^ 16)
  | video (flags1 flags2 : UInt8) (header payload : List UInt8) (hheader : header.length < 2 ^ 8)
      (hlen : 3 + header.length + payload.length < 2 ^ 16)

namespace PsUnit

def id : PsUnit → UInt8
  | systemHeader .. => 0xBB
  | streamMap .. => 0xBC
  | video .. => 0xE0

/-- What follows the length field. -/
def body : PsUnit → List UInt8
  | systemHeader body _ => body
  | streamMap body _ => body
  | video flags1 flags2 header payload _ _ =>
      [flags1, flags2, UInt8.ofNat header.length] ++ header ++ payload

def payload : PsUnit → List UInt8
  | systemHeader .. => []
  | streamMap .. => []
  | video _ _ _ payload _ _ => payload

def encode (u : PsUnit) : List UInt8 := startCode u.id ++ be16 u.body.length ++ u.body

end PsUnit

def encodeUnits (units : List PsUnit) : List UInt8 := units.flatMap PsUnit.encode

def payloads (units : List PsUnit) : List UInt8 := units.flatMap PsUnit.payload

/-- The bytes that the size limit lets through: a payload that would reach it is left out. -/
def keep (acc payload : List UInt8) : List UInt8 :=
  if payload.length + acc.length < h264FrameSizeMax then acc ++ payload else acc

/-- The frame after `units` when `acc` was collected before them. -/
def keepAll (acc : List UInt8) (units : List PsUnit) : List UInt8 :=
  (units.map PsUnit.payload).foldl keep acc

/-- A frame as it stands in `*outData`: there is a block only if it has bytes. -/
def blockOf (frame : List UInt8) : Option (List UInt8) := if frame = [] then none else some frame

def resultOf (frame : List UInt8) : PsResult :=
  ⟨UInt32.ofNat frame.length, blockOf frame, frame.length⟩

/-- The value of the 16-bit length field of a unit. -/
def declaredLength (unit : List UInt8) : Nat :=
  littelEndianSize (unit.getD 5 0) (unit.getD 4 0)

/-- The value of `header_data_length` of a video packet. -/
def headerDataLength (unit : List UInt8) : Nat := (unit.getD 8 0).toNat

def HasStartCode (id : UInt8) (bytes : List UInt8) : Prop := bytes.take 4 = startCode id

instance (id : UInt8) (bytes : List UInt8) : Decidable (HasStartCode id bytes) :=
  inferInstanceAs (Decidable (bytes.take 4 = startCode id))

def IsSkipped (bytes : List UInt8) : Prop := HasStartCode 0xBB bytes ∨ HasStartCode 0xBC bytes

instance (bytes : List UInt8) : Decidable (IsSkipped bytes) :=
  inferInstanceAs (Decidable (_ ∨ _))

/-- No unit starts here: fewer than four bytes, or another start code. -/
def EndsPack (tail : List UInt8) : Prop := ¬ HasStartCode 0xE0 tail ∧ ¬ IsSkipped tail

instance (tail : List UInt8) : Decidable (EndsPack tail) :=
  inferInstanceAs (Decidable (_ ∧ _))

/-- A start code with too few bytes behind it for the fixed part of its unit. -/
def CutInHeader (tail : List UInt8) : Prop :=
  (HasStartCode 0xE0 tail ∧ tail.length < sizeofProgramStreamE) ∨
    (IsSkipped tail ∧ tail.length < sizeofProgramStreamMap)

instance (tail : List UInt8) : Decidable (CutInHeader tail) :=
  inferInstanceAs (Decidable (_ ∨ _))

/-- A system header or stream map that declares more bytes than there are. -/
def CutInSkipped (tail : List UInt8) : Prop :=
  IsSkipped tail ∧ sizeofProgramStreamMap ≤ tail.length ∧ tail.length < 6 + declaredLength tail

instance (tail : List UInt8) : Decidable (CutInSkipped tail) :=
  inferInstanceAs (Decidable (_ ∧ _))

/-- A video packet that declares a header longer than itself. -/
def HeaderExceedsPacket (tail : List UInt8) : Prop :=
  HasStartCode 0xE0 tail ∧ sizeofProgramStreamE ≤ tail.length ∧
    declaredLength tail < 3 + headerDataLength tail

instance (tail : List UInt8) : Decidable (HeaderExceedsPacket tail) :=
  inferInstanceAs (Decidable (_ ∧ _))

/-- A video packet that declares more bytes than there are. -/
def CutInVideo (tail : List UInt8) : Prop :=
  HasStartCode 0xE0 tail ∧ sizeofProgramStreamE ≤ tail.length ∧
    tail.length < 6 + declaredLength tail

instance (tail : List UInt8) : Decidable (CutInVideo tail) :=
  inferInstanceAs (Decidable (_ ∧ _))

/-- The low three bits of byte 13 of a pack header. -/
def packStuffing (srcdata : List UInt8) : Nat := (srcdata.getD 13 0 &&& 7).toNat

/-- What follows the pack header and its stuffing. -/
def unitArea (srcdata : List UInt8) : List UInt8 :=
  srcdata.drop (sizeofProgramStreamPackHeader + packStuffing srcdata)

end GMProxy.TdPs
