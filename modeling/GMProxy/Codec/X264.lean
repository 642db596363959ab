import GMProxy.Codec.Encode

/-!
# Encoding with x264

`TdX264Handle::encode` takes the length of each NAL unit from the unit and its bytes from the first one.
-/

namespace GMProxy.Codec

open CMemory

/-- `x264_nal_t`; `pPayload` is an offset into the memory of the encoder. -/
structure X264Nal where
  iType : Int
  iPayload : Int
  pPayload : Nat
deriving DecidableEq

/-- What `x264_encoder_encode` returns and hands out. -/
structure X264Frame where
  iFrameSize : Int
  nals : List X264Nal
  iNal : Int
  memory : List UInt8
deriving DecidableEq

/-- Of `x264_picture_t` the planes and the time. -/
structure X264Picture where
  yPlane : List UInt8
  uPlane : List UInt8
  vPlane : List UInt8
  iPts : Nat
deriving DecidableEq

/-- `Picture_t`; `setPicture` puts the sizes of the planes in the strides. -/
structure PictureParam where
  width : Int
  height : Int
  yStride : Int
  uvStride : Int
deriving DecidableEq

structure TdX264Handle where
  picture : X264Picture
  picParam : PictureParam
  timestamp : Nat
deriving DecidableEq

structure X264Result where
  status : Int
  heap : Heap
  handle : TdX264Handle
  out : Encoded
deriving DecidableEq

def TdX264Handle.setPicture (handle : TdX264Handle) (width height : Int) : TdX264Handle :=
  let yStride := toInt (width * height)
  { handle with picParam := ⟨width, height, yStride, yStride.tdiv 4⟩ }

/-- `memcpy` of `stride` bytes to the front of a plane. -/
def fillPlane (plane data : List UInt8) (stride : Int) : Option (List UInt8) := do
  let copied ← memcpy data (some 0) (toSize stride)
  if copied.length ≤ plane.length then some (store plane 0 copied) else none

/-- The picture that `encode` hands to the encoder. -/
def TdX264Handle.fill (handle : TdX264Handle) (yData uData vData : List UInt8) :
    Option X264Picture := do
  let yPlane ← fillPlane handle.picture.yPlane yData handle.picParam.yStride
  let uPlane ← fillPlane handle.picture.uPlane uData handle.picParam.uvStride
  let vPlane ← fillPlane handle.picture.vPlane vData handle.picParam.uvStride
  some ⟨yPlane, uPlane, vPlane, handle.timestamp⟩

variable (fresh : Nat → UInt8)

/-- What is copied of the NAL unit `i`: the source of the copy is `nals->p_payload`. -/
def X264Frame.nalChunk (frame : X264Frame) (i : Nat) : Option Chunk := do
  let nal ← frame.nals[i]?
  let nals ← frame.nals[0]?
  some ⟨frame.memory, nals.pPayload, nal.iPayload⟩

/-- `NAL_SLICE_IDR`, `NAL_SPS` and `NAL_PPS`. -/
def isKeyType (iType : Int) : Bool := iType = 5 ∨ iType = 7 ∨ iType = 8

/-- `encoderEncode` is the encoder: what it makes of a picture. -/
def TdX264Handle.encode (handle : TdX264Handle) (encoderEncode : X264Picture → X264Frame)
    (heap : Heap) (yData uData vData : List UInt8) (out : Encoded) : Option X264Result := do
  let out := { out with packet := .empty }
  let picture ← handle.fill yData uData vData
  let handle := { handle with picture := picture, timestamp := (handle.timestamp + 1) % 2 ^ 64 }
  let out := { out with isKeyframe := false }
  let frame := encoderEncode picture
  if frame.iFrameSize < 0 then some ⟨-1, heap, handle, out⟩
  else if frame.iFrameSize ≠ 0 then do
    let (heap, packet) ← appendLoop fresh frame.nalChunk frame.iNal.toNat 0 heap out.packet
    let nals ← frame.nals[0]?
    let out := { out with packet := packet, isKeyframe := isKeyType nals.iType }
    some ⟨0, heap, handle, out⟩
  else some ⟨0, heap, handle, out⟩

namespace X264Frame

variable (frame : X264Frame)

/-- The bytes of a NAL unit. -/
def payloadOf (nal : X264Nal) : List UInt8 := (frame.memory.drop nal.pPayload).take nal.iPayload.toNat

/-- The bytes of all NAL units in order. -/
def payload : List UInt8 := frame.nals.flatMap frame.payloadOf

end X264Frame

/-- NAL units one behind the other in memory, from `start` to `stop`. -/
def Sequential : (nals : List X264Nal) → (start stop : Nat) → Prop
  | [], start, stop => start = stop
  | nal :: nals, start, stop =>
      nal.pPayload = start ∧ 0 ≤ nal.iPayload ∧ Sequential nals (start + nal.iPayload.toNat) stop

/-- A frame as x264 hands it out: the payloads of its NAL units follow each other in memory, and
`iFrameSize` is their total. -/
structure X264Frame.Filled (frame : X264Frame) : Prop where
  count : frame.iNal = frame.nals.length
  int : frame.iFrameSize < 2 ^ 31
  sequential : ∃ start, Sequential frame.nals start (start + frame.iFrameSize.toNat) ∧
    start + frame.iFrameSize.toNat ≤ frame.memory.length

variable {fresh} {frame : X264Frame} {start stop : Nat}

theorem Sequential.le {nals : List X264Nal} (h : Sequential nals start stop) : start ≤ stop := by
  induction nals generalizing start with
  | nil => exact Nat.le_of_eq h
  | cons nal nals ih => exact Nat.le_trans (Nat.le_add_right _ _) (ih h.2.2)

theorem Sequential.mem {nals : List X264Nal} (h : Sequential nals start stop) {nal : X264Nal}
    (hnal : nal ∈ nals) : 0 ≤ nal.iPayload ∧ start ≤ nal.pPayload ∧
      nal.pPayload + nal.iPayload.toNat ≤ stop := by
  induction nals generalizing start with
  | nil => cases hnal
  | cons first nals ih =>
      obtain ⟨hstart, hnonneg, hrest⟩ := h
      have hle := hrest.le
      cases hnal with
      | head => exact ⟨hnonneg, by omega, by omega⟩
      | tail _ hnal =>
          obtain ⟨hnonneg', hfrom, hend⟩ := ih hrest hnal
          exact ⟨hnonneg', by omega, hend⟩

/-- The payloads in order are one piece of memory. -/
theorem Sequential.flatMap_payloadOf {nals : List X264Nal} (h : Sequential nals start stop) :
    nals.flatMap frame.payloadOf = (frame.memory.drop start).take (stop - start) := by
  induction nals generalizing start with
  | nil =>
      have hstop : start = stop := h
      rw [hstop, Nat.sub_self, List.take_zero, List.flatMap_nil]
  | cons nal nals ih =>
      obtain ⟨hstart, -, hrest⟩ := h
      have hle := hrest.le
      have hsplit : stop - start = nal.iPayload.toNat + (stop - (start + nal.iPayload.toNat)) := by
        omega
      rw [List.flatMap_cons, ih hrest, X264Frame.payloadOf, hstart, hsplit, List.take_add,
        List.drop_drop]

theorem Sequential.sum {nals : List X264Nal} (h : Sequential nals start stop) :
    (nals.map (·.iPayload)).sum = ((stop - start : Nat) : Int) := by
  induction nals generalizing start with
  | nil =>
      have hstop : start = stop := h
      rw [hstop, Nat.sub_self]
      rfl
  | cons nal nals ih =>
      obtain ⟨-, hnonneg, hrest⟩ := h
      have hle := hrest.le
      rw [List.map_cons, List.sum_cons, ih hrest]
      omega

theorem X264Frame.Filled.length_payload (h : frame.Filled) :
    frame.payload.length = frame.iFrameSize.toNat := by
  obtain ⟨start, hsequential, hin⟩ := h.sequential
  rw [payload, hsequential.flatMap_payloadOf, List.length_take, List.length_drop]
  omega

/-- The chunks that are copied: of each NAL unit the length, of the first one the place. -/
def X264Frame.chunks (frame : X264Frame) (first : X264Nal) : List Chunk :=
  frame.nals.map fun nal => ⟨frame.memory, first.pPayload, nal.iPayload⟩

/-- A chunk is as much of the payload of the frame as its NAL unit has bytes. -/
theorem X264Frame.Filled.chunk_bytes (h : frame.Filled) {first : X264Nal}
    (hfirst : frame.nals[0]? = some first) {nal : X264Nal} (hnal : nal ∈ frame.nals) :
    (⟨frame.memory, first.pPayload, nal.iPayload⟩ : Chunk).Fits ∧
      (⟨frame.memory, first.pPayload, nal.iPayload⟩ : Chunk).bytes =
        frame.payload.take nal.iPayload.toNat := by
  obtain ⟨start, hsequential, hin⟩ := h.sequential
  have hstart : first.pPayload = start := by
    cases hnals : frame.nals with
    | nil => rw [hnals] at hfirst; cases hfirst
    | cons first' nals =>
        rw [hnals] at hfirst hsequential
        obtain rfl := Option.some.inj hfirst
        exact hsequential.1
  obtain ⟨hnonneg, hfrom, hend⟩ := hsequential.mem hnal
  refine ⟨⟨hnonneg, by simp only; omega⟩, ?_⟩
  rw [Chunk.bytes, payload, hsequential.flatMap_payloadOf, List.take_take, hstart,
    Nat.add_sub_cancel_left, Nat.min_eq_left (by omega)]

theorem X264Frame.Filled.length_payloadOf (h : frame.Filled) {nal : X264Nal}
    (hnal : nal ∈ frame.nals) : (frame.payloadOf nal).length = nal.iPayload.toNat := by
  obtain ⟨start, hsequential, hin⟩ := h.sequential
  obtain ⟨-, hfrom, hend⟩ := hsequential.mem hnal
  rw [payloadOf, List.length_take, List.length_drop]
  omega

/-- What is copied for a NAL unit has as many bytes as its payload. -/
theorem X264Frame.Filled.length_take (h : frame.Filled) {nal : X264Nal} (hnal : nal ∈ frame.nals) :
    (frame.payload.take nal.iPayload.toNat).length = (frame.payloadOf nal).length := by
  have hlength := h.length_payload
  have hsingle := h.length_payloadOf hnal
  obtain ⟨start, hsequential, -⟩ := h.sequential
  obtain ⟨-, hfrom, hend⟩ := hsequential.mem hnal
  rw [List.length_take]
  omega

theorem flatMap_eq_flatMap_iff {α β : Type*} {f g : α → List β} {l : List α}
    (hlength : ∀ a ∈ l, (f a).length = (g a).length) :
    l.flatMap f = l.flatMap g ↔ ∀ a ∈ l, f a = g a := by
  constructor
  · intro heq
    induction l with
    | nil => exact List.forall_mem_nil _
    | cons a l ih =>
        obtain ⟨hfirst, hrest⟩ := List.forall_mem_cons.mp hlength
        rw [List.flatMap_cons, List.flatMap_cons] at heq
        obtain ⟨hhead, htail⟩ := List.append_inj heq hfirst
        exact List.forall_mem_cons.mpr ⟨hhead, ih hrest htail⟩
  · exact List.flatMap_congr

variable (fresh)

/-- The loop copies for every NAL unit the front of the payload. -/
theorem X264Frame.Filled.exists_loop (h : frame.Filled) {first : X264Nal}
    (hfirst : frame.nals[0]? = some first) (heap : Heap) :
    ∃ heap' packet, appendLoop fresh frame.nalChunk frame.iNal.toNat 0 heap .empty =
        some (heap', packet) ∧
      packet.bytes = frame.nals.flatMap (fun nal => frame.payload.take nal.iPayload.toNat) ∧
      packet.Held heap.next heap' := by
  have hlength := h.length_payload
  have hint := h.int
  have hfits : ∀ c ∈ frame.chunks first, c.Fits := by
    intro c hc
    obtain ⟨nal, hnal, rfl⟩ := List.mem_map.mp hc
    exact (h.chunk_bytes hfirst hnal).1
  have hbytes : (frame.chunks first).flatMap Chunk.bytes =
      frame.nals.flatMap (fun nal => frame.payload.take nal.iPayload.toNat) := by
    rw [chunks, List.flatMap_map]
    exact List.flatMap_congr fun nal hnal => (h.chunk_bytes hfirst hnal).2
  have hchunks : ∀ k c, (frame.chunks first)[k]? = some c → frame.nalChunk (0 + k) = some c := by
    intro k c hc
    rw [chunks, List.getElem?_map] at hc
    obtain ⟨nal, hnal, rfl⟩ := Option.map_eq_some_iff.mp hc
    simp only [nalChunk, Nat.zero_add, hnal, hfirst, Option.bind_eq_bind, Option.bind_some]
  have hsize : ((frame.chunks first).flatMap Chunk.bytes).length = frame.payload.length := by
    rw [hbytes, payload, List.length_flatMap, List.length_flatMap]
    congr 1
    exact List.map_congr_left fun nal hnal => h.length_take hnal
  have hcount : (frame.chunks first).length = frame.iNal.toNat := by
    rw [chunks, List.length_map, h.count, Int.toNat_natCast]
  obtain ⟨heap', packet, hloop, hpacket, -, hheld⟩ :=
    appendLoop_eq fresh hchunks hfits (Pkt.empty_held heap)
      (show 0 + _ < 2 ^ 32 by rw [hsize]; omega)
  rw [hbytes] at hpacket
  rw [hcount] at hloop
  exact ⟨heap', packet, hloop, hpacket, hheld⟩

/-- `encode` returns what the loop has copied. -/
theorem TdX264Handle.encode_eq {handle : TdX264Handle} {encoderEncode : X264Picture → X264Frame}
    {yData uData vData : List UInt8} {picture : X264Picture}
    (hpicture : handle.fill yData uData vData = some picture)
    (hframe : encoderEncode picture = frame) (h : frame.Filled) (hpos : 0 < frame.iFrameSize)
    (heap : Heap) (out : Encoded) :
    ∃ result, handle.encode fresh encoderEncode heap yData uData vData out = some result ∧
      result.out.packet.bytes =
        frame.nals.flatMap (fun nal => frame.payload.take nal.iPayload.toNat) ∧
      result.out.packet.Held heap.next result.heap := by
  cases hfirst : frame.nals[0]? with
  | none =>
      -- without NAL units the frame would have no bytes
      have hlength := h.length_payload
      rw [X264Frame.payload, List.eq_nil_of_length_eq_zero
        (Nat.le_zero.mp (List.getElem?_eq_none_iff.mp hfirst)), List.flatMap_nil] at hlength
      have hzero : frame.iFrameSize.toNat = 0 := hlength.symm
      omega
  | some first =>
      obtain ⟨heap', packet, hloop, hpacket, hheld⟩ := h.exists_loop fresh hfirst heap
      refine ⟨⟨0, heap', { handle with
        picture := picture, timestamp := (handle.timestamp + 1) % 2 ^ 64 },
        { out with packet := packet, isKeyframe := isKeyType first.iType }⟩, ?_, hpacket, hheld⟩
      simp only [TdX264Handle.encode, hpicture, hframe, Option.bind_eq_bind, Option.bind_some,
        if_neg (Int.not_lt.mpr (Int.le_of_lt hpos)), if_pos (Int.ne_of_gt hpos), hloop, hfirst]

/-- The packet is the payload of the frame where the payload of every NAL unit is a front of it, and
nowhere else. -/
theorem encode_payload_iff {handle : TdX264Handle} {encoderEncode : X264Picture → X264Frame}
    {yData uData vData : List UInt8} {picture : X264Picture}
    (hpicture : handle.fill yData uData vData = some picture)
    (hframe : encoderEncode picture = frame) (h : frame.Filled) (hpos : 0 < frame.iFrameSize)
    (heap : Heap) (out : Encoded) :
    (∃ result, handle.encode fresh encoderEncode heap yData uData vData out = some result ∧
      result.out.packet.bytes = frame.payload ∧
      (result.out.packet.pktSize : Int) = (frame.nals.map (·.iPayload)).sum) ↔
    ∀ nal ∈ frame.nals, frame.payloadOf nal <+: frame.payload := by
  obtain ⟨result, hresult, hbytes, hheld⟩ :=
    TdX264Handle.encode_eq fresh hpicture hframe h hpos heap out
  have hpieces : result.out.packet.bytes = frame.payload ↔
      ∀ nal ∈ frame.nals, frame.payloadOf nal <+: frame.payload := by
    rw [hbytes]
    apply (flatMap_eq_flatMap_iff fun nal hnal => h.length_take hnal).trans
    constructor
    · intro heq nal hnal
      rw [← heq nal hnal]
      exact List.take_prefix _ _
    · intro hprefixes nal hnal
      rw [← h.length_payloadOf hnal]
      exact (List.prefix_iff_eq_take.mp (hprefixes nal hnal)).symm
  constructor
  · intro hreturns
    obtain ⟨result', hresult', hpayload, -⟩ := hreturns
    obtain rfl := Option.some.inj (hresult.symm.trans hresult')
    exact hpieces.mp hpayload
  · intro hprefixes
    have hpayload := hpieces.mpr hprefixes
    refine ⟨result, hresult, hpayload, ?_⟩
    obtain ⟨start, hsequential, -⟩ := h.sequential
    rw [← hheld.length, hpayload, h.length_payload, hsequential.sum, Nat.add_sub_cancel_left]

/-- A handle for pictures of two by two pixels. -/
def smallHandle : TdX264Handle :=
  TdX264Handle.setPicture ⟨⟨[0, 0, 0, 0], [0], [0], 0⟩, ⟨0, 0, 0, 0⟩, 0⟩ 2 2

/-- A frame of a single slice. -/
theorem encode_payload_slice : ∃ result, smallHandle.encode (fun _ => 0)
      (fun _ => ⟨5, [⟨1, 5, 0⟩], 1, [0, 0, 0, 1, 0x41]⟩) .empty [1, 2, 3, 4] [5] [6]
      ⟨.empty, false, false⟩ = some result ∧
    result.out.packet.bytes = [0, 0, 0, 1, 0x41] ∧ (result.out.packet.pktSize : Int) = 5 := by
  have hfilled : X264Frame.Filled ⟨5, [⟨1, 5, 0⟩], 1, [0, 0, 0, 1, 0x41]⟩ :=
    ⟨rfl, by decide, 0, ⟨rfl, by decide, rfl⟩, by decide⟩
  exact (encode_payload_iff (fun _ => 0) rfl rfl hfilled (by decide) _ _).mpr (by decide)

/-- An SPS and a PPS. -/
def parameterSets : X264Frame :=
  ⟨10, [⟨7, 5, 0⟩, ⟨8, 5, 5⟩], 2, [0, 0, 0, 1, 0x67, 0, 0, 0, 1, 0x68]⟩

/-- The SPS is copied in place of the PPS. -/
theorem parameterSets_lost : parameterSets.Filled ∧ 0 < parameterSets.iFrameSize ∧
    ∃ result, smallHandle.encode (fun _ => 0) (fun _ => parameterSets) .empty [1, 2, 3, 4] [5] [6]
        ⟨.empty, false, false⟩ = some result ∧
      result.out.packet.bytes = [0, 0, 0, 1, 0x67, 0, 0, 0, 1, 0x67] ∧
      result.out.packet.bytes ≠ parameterSets.payload :=
  ⟨⟨rfl, by decide, 0, ⟨rfl, by decide, rfl, by decide, rfl⟩, by decide⟩, by decide,
    _, rfl, rfl, by decide⟩

end GMProxy.Codec
