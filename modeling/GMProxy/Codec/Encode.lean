import GMProxy.Codec.Convert
import GMProxy.Library.CMemory
import GMProxy.Library.Heap
import Mathlib.Algebra.Order.BigOperators.Group.List
import Mathlib.Algebra.Order.Group.Int
import Mathlib.Algebra.Ring.Int.Defs

/-!
# Encoding a picture

`TdH264::encode` puts the layers of an encoded frame together in one block that grows with each layer.
The NAL units of a layer lie behind each other in its `pBsBuf`.
-/

namespace GMProxy.Codec

open CMemory Heap

/-- `*pkt` and `*pkt_size`, with the bytes of the block. -/
structure Pkt where
  pkt : Option Nat
  bytes : List UInt8
  pktSize : Nat
deriving DecidableEq

def Pkt.empty : Pkt := ⟨none, [], 0⟩

/-- `count` bytes of a source from `offset` on. -/
structure Chunk where
  source : List UInt8
  offset : Nat
  count : Int
deriving DecidableEq

def Chunk.bytes (c : Chunk) : List UInt8 := (c.source.drop c.offset).take c.count.toNat

/-- The bytes lie in the source. -/
structure Chunk.Fits (c : Chunk) : Prop where
  nonneg : 0 ≤ c.count
  inSource : c.offset + c.count.toNat ≤ c.source.length

/-- `realloc` to `*pkt_size + count` bytes, `memcpy` of the chunk behind the old ones. -/
def Pkt.append (fresh : Nat → UInt8) (heap : Heap) (p : Pkt) (c : Chunk) : Option (Heap × Pkt) := do
  let size := toUnsigned (p.pktSize + c.count)
  let (heap, pkt) ← heap.realloc p.pkt size
  let block := CMemory.realloc fresh p.bytes size
  let copied ← memcpy c.source (some c.offset) (toSize c.count)
  if p.pktSize + copied.length ≤ block.length then
    some (heap, ⟨pkt, store block p.pktSize copied, size⟩)
  else none

/-- A loop that appends the chunk of each index from `i` on, of which `left` are left. -/
def appendLoop (fresh : Nat → UInt8) (chunkAt : Nat → Option Chunk) :
    (left i : Nat) → Heap → Pkt → Option (Heap × Pkt)
  | 0, _, heap, p => some (heap, p)
  | left + 1, i, heap, p => do
      let c ← chunkAt i
      let (heap, p) ← p.append fresh heap c
      appendLoop fresh chunkAt left (i + 1) heap p

/-- The packet is all that is live from `base` on, and has as many bytes as its size says. -/
structure Pkt.Held (base : Nat) (heap : Heap) (p : Pkt) : Prop where
  owned : heap.Owned base p.pkt
  length : p.bytes.length = p.pktSize
  block : 0 < p.pktSize → p.pkt.isSome

theorem Pkt.empty_held (heap : Heap) : Pkt.empty.Held heap.next heap :=
  ⟨owned_next heap, rfl, fun hpos => absurd hpos (Nat.lt_irrefl 0)⟩

theorem Chunk.Fits.length_bytes {c : Chunk} (h : c.Fits) : c.bytes.length = c.count.toNat := by
  have hin := h.inSource
  rw [Chunk.bytes, List.length_take, List.length_drop]
  omega

variable (fresh : Nat → UInt8) {base : Nat} {heap : Heap} {p : Pkt}

/-- A chunk that lies in its source is appended, as long as the size stays below 4 GiB. -/
theorem Pkt.append_eq (hheld : p.Held base heap) {c : Chunk} (hfits : c.Fits)
    (hsize : p.pktSize + c.count.toNat < 2 ^ 32) :
    ∃ heap' p', p.append fresh heap c = some (heap', p') ∧ p'.bytes = p.bytes ++ c.bytes ∧
      heap.Keeps base heap' ∧ p'.Held base heap' := by
  have hnonneg := hfits.nonneg
  have hunsigned : toUnsigned (p.pktSize + c.count) = p.pktSize + c.count.toNat := by
    rw [toUnsigned_of_nonneg (by omega) (by omega)]
    omega
  have hcopy : toSize c.count = c.count.toNat := toSize_of_nonneg hnonneg (by omega)
  have hmemcpy : memcpy c.source (some c.offset) c.count.toNat = some c.bytes :=
    memcpy_of_le hfits.inSource
  obtain ⟨heap', block, hrealloc, hkeeps, howned, hblock⟩ :=
    exists_realloc hheld.owned (p.pktSize + c.count.toNat)
  obtain ⟨room, hroom, hgrow⟩ := exists_realloc_grow fresh p.bytes c.count.toNat
  have hstore : store (p.bytes ++ room) p.pktSize c.bytes = p.bytes ++ c.bytes := by
    rw [← hheld.length, store_append (hroom.trans hfits.length_bytes.symm)]
  have hin : p.pktSize + c.bytes.length ≤ (p.bytes ++ room).length := by
    rw [List.length_append, hheld.length, hroom, hfits.length_bytes]
  rw [hheld.length] at hgrow
  refine ⟨heap', ⟨block, p.bytes ++ c.bytes, p.pktSize + c.count.toNat⟩, ?_, rfl, hkeeps, ?_⟩
  · simp only [Pkt.append, hunsigned, hcopy, hrealloc, hgrow, hmemcpy, Option.bind_eq_bind,
      Option.bind_some, if_pos hin, hstore]
  · refine ⟨howned, ?_, hblock⟩
    rw [List.length_append, hheld.length, hfits.length_bytes]

/-- The chunks are appended in their order. -/
theorem appendLoop_eq {chunkAt : Nat → Option Chunk} {chunks : List Chunk} {i : Nat}
    (hchunks : ∀ k c, chunks[k]? = some c → chunkAt (i + k) = some c)
    (hfits : ∀ c ∈ chunks, c.Fits) (hheld : p.Held base heap)
    (hsize : p.pktSize + (chunks.flatMap Chunk.bytes).length < 2 ^ 32) :
    ∃ heap' p', appendLoop fresh chunkAt chunks.length i heap p = some (heap', p') ∧
      p'.bytes = p.bytes ++ chunks.flatMap Chunk.bytes ∧
      heap.Keeps base heap' ∧ p'.Held base heap' := by
  induction chunks generalizing i heap p with
  | nil => exact ⟨heap, p, rfl, by simp, .refl _ _, hheld⟩
  | cons c chunks ih =>
      obtain ⟨hfirst, hrest⟩ := List.forall_mem_cons.mp hfits
      rw [List.flatMap_cons, List.length_append, hfirst.length_bytes] at hsize
      obtain ⟨heap₁, p₁, happend, hbytes, hkeeps, hheld₁⟩ :=
        Pkt.append_eq fresh hheld hfirst (by omega)
      have hpktSize : p₁.pktSize = p.pktSize + c.count.toNat := by
        rw [← hheld₁.length, hbytes, List.length_append, hheld.length, hfirst.length_bytes]
      have hnext : ∀ k c, chunks[k]? = some c → chunkAt (i + 1 + k) = some c := by
        intro k c' hc'
        rw [Nat.add_right_comm]
        exact hchunks (k + 1) c' hc'
      obtain ⟨heap₂, p₂, hloop, hbytes₂, hkeeps₂, hheld₂⟩ :=
        ih hnext hrest hheld₁ (by omega)
      refine ⟨heap₂, p₂, ?_, ?_, hkeeps.trans hkeeps₂, hheld₂⟩
      · have hhere : chunkAt i = some c := hchunks 0 c rfl
        simp only [List.length_cons, appendLoop, hhere, happend, Option.bind_eq_bind,
          Option.bind_some, hloop]
      · rw [hbytes₂, hbytes, List.flatMap_cons, List.append_assoc]

/-- `EVideoFrameType`, in the order of its values. -/
inductive EVideoFrameType where
  | invalid
  | idr
  | i
  | p
  | skip
  | ipMixed
deriving DecidableEq, Repr

structure SLayerBSInfo where
  iNalCount : Int
  pNalLengthInByte : List Int
  pBsBuf : List UInt8
deriving DecidableEq

structure SFrameBSInfo where
  iLayerNum : Int
  sLayerInfo : List SLayerBSInfo
  eFrameType : EVideoFrameType
  iFrameSizeInBytes : Int
deriving DecidableEq

/-- `videoFormatI420`. -/
def videoFormatI420 : Int := 23

/-- `Source_Picture_s`: strides and planes of Y, U and V; `encode` and `setPicture` use no others. -/
structure SSourcePicture where
  iColorFormat : Int := 0
  yStride : Int := 0
  uvStride : Int := 0
  yData : Option Nat := none
  uData : Option Nat := none
  vData : Option Nat := none
  iPicWidth : Int := 0
  iPicHeight : Int := 0
  uiTimeStamp : Nat := 0
deriving DecidableEq

/-- What `EncodeFrame` returns and fills in. -/
structure EncodeFrame where
  err : Int
  info : SFrameBSInfo
deriving DecidableEq

/-- The `do … while` loop: the lengths from `iNalIdx` down to the first. -/
def nalLoop (lengths : List Int) : (iNalIdx : Nat) → (iLayerSize : Int) → Option Int
  | 0, iLayerSize => do
      let length ← lengths[0]?
      some (toInt (iLayerSize + length))
  | iNalIdx + 1, iLayerSize => do
      let length ← lengths[iNalIdx + 1]?
      nalLoop lengths iNalIdx (toInt (iLayerSize + length))

/-- Without a NAL unit the loop begins in front of the lengths. -/
def SLayerBSInfo.layerSize (layer : SLayerBSInfo) : Option Int :=
  if layer.iNalCount < 1 then none
  else nalLoop layer.pNalLengthInByte (layer.iNalCount - 1).toNat 0

/-- What is copied of the layer `iLayer`. -/
def layerChunk (layers : List SLayerBSInfo) (iLayer : Nat) : Option Chunk := do
  let layer ← layers[iLayer]?
  let iLayerSize ← layer.layerSize
  some ⟨layer.pBsBuf, 0, iLayerSize⟩

/-- The lengths of the NAL units of the layer. -/
def SLayerBSInfo.nals (layer : SLayerBSInfo) : List Int :=
  layer.pNalLengthInByte.take layer.iNalCount.toNat

/-- The bytes of the NAL units, which lie behind each other. -/
def SLayerBSInfo.payload (layer : SLayerBSInfo) : List UInt8 :=
  layer.pBsBuf.take layer.nals.sum.toNat

/-- The layers that the encoder has filled in. -/
def SFrameBSInfo.layers (info : SFrameBSInfo) : List SLayerBSInfo :=
  info.sLayerInfo.take info.iLayerNum.toNat

def SFrameBSInfo.payload (info : SFrameBSInfo) : List UInt8 :=
  info.layers.flatMap SLayerBSInfo.payload

/-- A layer with NAL units, all in its buffer. -/
structure SLayerBSInfo.Filled (layer : SLayerBSInfo) : Prop where
  count : 1 ≤ layer.iNalCount
  lengths : layer.iNalCount.toNat ≤ layer.pNalLengthInByte.length
  nonneg : ∀ length ∈ layer.nals, 0 ≤ length
  contiguous : layer.nals.sum.toNat ≤ layer.pBsBuf.length

/-- A frame as the encoder gives it out; the `int` with the size of the frame holds it. -/
structure SFrameBSInfo.Filled (info : SFrameBSInfo) : Prop where
  count : info.iLayerNum.toNat ≤ info.sLayerInfo.length
  layers : ∀ layer ∈ info.layers, layer.Filled
  size : (info.layers.map (·.nals.sum)).sum = info.iFrameSizeInBytes
  int : info.iFrameSizeInBytes < 2 ^ 31

theorem nalLoop_eq {lengths : List Int} {iNalIdx : Nat} {iLayerSize : Int}
    (hin : iNalIdx < lengths.length) (hnonneg : ∀ length ∈ lengths.take (iNalIdx + 1), 0 ≤ length)
    (hsize : 0 ≤ iLayerSize) (hint : iLayerSize + (lengths.take (iNalIdx + 1)).sum < 2 ^ 31) :
    nalLoop lengths iNalIdx iLayerSize = some (iLayerSize + (lengths.take (iNalIdx + 1)).sum) := by
  induction iNalIdx generalizing iLayerSize with
  | zero =>
      have hfirst : lengths.take (0 + 1) = [lengths[0]] := by
        rw [List.take_succ_eq_append_getElem hin, List.take_zero, List.nil_append]
      rw [hfirst] at hnonneg hint ⊢
      rw [List.sum_singleton] at hint ⊢
      have hlength := hnonneg lengths[0] (List.mem_singleton_self _)
      simp only [nalLoop, List.getElem?_eq_getElem hin, Option.bind_eq_bind, Option.bind_some]
      rw [toInt_of_mem (by omega) hint]
  | succ iNalIdx ih =>
      have hsplit : lengths.take (iNalIdx + 1 + 1) =
          lengths.take (iNalIdx + 1) ++ [lengths[iNalIdx + 1]] :=
        List.take_succ_eq_append_getElem hin
      rw [hsplit] at hnonneg hint ⊢
      rw [List.sum_append, List.sum_singleton] at hint ⊢
      have hlast := hnonneg lengths[iNalIdx + 1]
        (List.mem_append_right _ (List.mem_singleton_self _))
      have hfront : ∀ length ∈ lengths.take (iNalIdx + 1), 0 ≤ length :=
        fun length hlength => hnonneg length (List.mem_append_left _ hlength)
      have hsum := List.sum_nonneg hfront
      simp only [nalLoop, List.getElem?_eq_getElem hin, Option.bind_eq_bind, Option.bind_some]
      rw [toInt_of_mem (by omega) (by omega),
        ih (Nat.lt_of_succ_lt hin) hfront (by omega) (by omega)]
      congr 1
      omega

theorem SLayerBSInfo.Filled.layerSize {layer : SLayerBSInfo} (h : layer.Filled)
    (hint : layer.nals.sum < 2 ^ 31) : layer.layerSize = some layer.nals.sum := by
  have hcount := h.count
  have hlengths := h.lengths
  have hsucc : (layer.iNalCount - 1).toNat + 1 = layer.iNalCount.toNat := by omega
  have hnals : layer.pNalLengthInByte.take ((layer.iNalCount - 1).toNat + 1) = layer.nals := by
    rw [hsucc, SLayerBSInfo.nals]
  rw [SLayerBSInfo.layerSize, if_neg (by omega), nalLoop_eq (by omega) (by rw [hnals]; exact h.nonneg)
    (Int.le_refl 0) (by rw [hnals]; omega), hnals, Int.zero_add]

theorem SLayerBSInfo.Filled.sum_nonneg {layer : SLayerBSInfo} (h : layer.Filled) :
    0 ≤ layer.nals.sum := List.sum_nonneg h.nonneg

/-- The bytes of the NAL units as `encode` copies them. -/
def SLayerBSInfo.chunk (layer : SLayerBSInfo) : Chunk := ⟨layer.pBsBuf, 0, layer.nals.sum⟩

theorem SLayerBSInfo.bytes_chunk (layer : SLayerBSInfo) : layer.chunk.bytes = layer.payload := rfl

theorem SLayerBSInfo.Filled.chunk_fits {layer : SLayerBSInfo} (h : layer.Filled) :
    layer.chunk.Fits where
  nonneg := h.sum_nonneg
  inSource := by
    rw [SLayerBSInfo.chunk, Nat.zero_add]
    exact h.contiguous

theorem SLayerBSInfo.Filled.length_payload {layer : SLayerBSInfo} (h : layer.Filled) :
    (layer.payload.length : Int) = layer.nals.sum := by
  rw [← layer.bytes_chunk, h.chunk_fits.length_bytes]
  exact Int.toNat_of_nonneg h.sum_nonneg

theorem SFrameBSInfo.Filled.length_payload {info : SFrameBSInfo} (h : info.Filled) :
    (info.payload.length : Int) = (info.layers.map (·.nals.sum)).sum := by
  have hlengths : ∀ layers : List SLayerBSInfo, (∀ layer ∈ layers, layer.Filled) →
      ((layers.flatMap SLayerBSInfo.payload).length : Int) = (layers.map (·.nals.sum)).sum := by
    intro layers hlayers
    induction layers with
    | nil => rfl
    | cons layer layers ih =>
        obtain ⟨hlayer, hrest⟩ := List.forall_mem_cons.mp hlayers
        rw [List.flatMap_cons, List.length_append, List.map_cons, List.sum_cons, ← ih hrest,
          ← hlayer.length_payload, Int.natCast_add]
  exact hlengths _ h.layers

theorem SFrameBSInfo.Filled.layerChunk {info : SFrameBSInfo} (h : info.Filled) {iLayer : Nat}
    {layer : SLayerBSInfo} (hlayer : info.layers[iLayer]? = some layer) :
    layerChunk info.sLayerInfo iLayer = some layer.chunk := by
  have hmem := List.mem_of_getElem? hlayer
  have hfilled := h.layers layer hmem
  have hint := h.int
  have hlt : iLayer < info.iLayerNum.toNat := by
    by_contra hge
    rw [SFrameBSInfo.layers, List.getElem?_take, if_neg hge] at hlayer
    cases hlayer
  -- a layer is no larger than the frame, whose size is an `int`
  have hle : layer.nals.sum ≤ (info.layers.map (·.nals.sum)).sum := by
    apply List.single_le_sum
    · intro size hsize
      obtain ⟨other, hother, rfl⟩ := List.mem_map.mp hsize
      exact (h.layers other hother).sum_nonneg
    · exact List.mem_map_of_mem hmem
  rw [SFrameBSInfo.layers, List.getElem?_take_of_lt hlt] at hlayer
  rw [← h.size] at hint
  simp only [Codec.layerChunk, hlayer, Option.bind_eq_bind, Option.bind_some,
    hfilled.layerSize (Int.lt_of_le_of_lt hle hint), SLayerBSInfo.chunk]

/-- Of `TdH264`: whether there is an `encoder_`, what it was last initialised with, and the picture it
is given. -/
structure TdH264 where
  param : TdCodecParam
  encoder : Bool
  encParam : Option EncoderParam
  picture : SSourcePicture
  timestamp : Nat
deriving DecidableEq

/-- The parameters that `encode` sets. -/
structure Encoded where
  packet : Pkt
  isKeyframe : Bool
  gotOutput : Bool
deriving DecidableEq

/-- The result of `encode`, with the heap and the members that it leaves. -/
structure EncodeResult where
  status : Int
  heap : Heap
  codec : TdH264
  out : Encoded
deriving DecidableEq

/-- The picture that `encode` hands to the encoder. -/
def TdH264.source (codec : TdH264) (yData uData vData : Option Nat) : SSourcePicture :=
  { codec.picture with
    uiTimeStamp := codec.timestamp, yData := yData, uData := uData, vData := vData }

/-- The output of a frame that is not invalid. -/
def assemble (heap : Heap) (info : SFrameBSInfo) (out : Encoded) : Option (Heap × Encoded) :=
  if info.eFrameType ≠ .skip then do
    let (heap, packet) ←
      appendLoop fresh (layerChunk info.sLayerInfo) info.iLayerNum.toNat 0 heap out.packet
    some (heap, { out with packet := packet, gotOutput := true })
  else some (heap, { out with isKeyframe := false })

def Encoded.mark (out : Encoded) (type : EVideoFrameType) : Encoded :=
  if 0 < out.packet.pktSize then
    match type with
    | .idr | .i => { out with isKeyframe := true }
    | _ => { out with isKeyframe := false }
  else out

/-- `encodeFrame` is the encoder: what it makes of a picture. -/
def TdH264.encode (codec : TdH264) (encodeFrame : SSourcePicture → EncodeFrame) (heap : Heap)
    (yData uData vData : Option Nat) (out : Encoded) : Option EncodeResult :=
  let out := { out with gotOutput := false }
  if codec.encoder then
    let out := { out with packet := .empty }
    let picture := codec.source yData uData vData
    let codec := { codec with picture := picture, timestamp := (codec.timestamp + 1) % 2 ^ 64 }
    let frame := encodeFrame picture
    if frame.err ≠ 0 then some ⟨0, heap, codec, out⟩
    else if frame.info.eFrameType = .invalid then some ⟨0, heap, codec, out⟩
    else do
      let (heap, out) ← assemble fresh heap frame.info out
      let out := out.mark frame.info.eFrameType
      some ⟨toInt out.packet.pktSize, heap, codec, out⟩
  else some ⟨0, heap, codec, out⟩

/-- The encoder has made a frame with a bit stream. -/
def EncodeFrame.Coded (frame : EncodeFrame) : Prop :=
  frame.err = 0 ∧ frame.info.eFrameType ≠ .invalid ∧ frame.info.eFrameType ≠ .skip

/-- A packet with the bytes of the frame, or none. -/
structure EncodeResult.Assembled (result : EncodeResult) (frame : EncodeFrame) : Prop where
  bytes : frame.Coded → result.out.packet.bytes = frame.info.payload
  size : frame.Coded →
    (result.out.packet.pktSize : Int) = (frame.info.layers.map (·.nals.sum)).sum
  keyframe : frame.Coded → result.out.packet.bytes ≠ [] →
    (result.out.isKeyframe = true ↔ frame.info.eFrameType = .idr ∨ frame.info.eFrameType = .i)
  none : ¬ frame.Coded → result.out.packet = .empty

/-- A frame with a bit stream comes out whole. -/
theorem assemble_coded {frame : EncodeFrame} (out : Encoded) (hcoded : frame.Coded)
    (hfilled : frame.info.Filled) (hempty : out.packet = .empty) :
    ∃ heap' packet, assemble fresh heap frame.info out =
        some (heap', { out with packet := packet, gotOutput := true }) ∧
      packet.bytes = frame.info.payload ∧ heap.Keeps heap.next heap' ∧
      packet.Held heap.next heap' := by
  obtain ⟨-, -, hskip⟩ := hcoded
  have hchunks : ∀ k c, (frame.info.layers.map SLayerBSInfo.chunk)[k]? = some c →
      layerChunk frame.info.sLayerInfo (0 + k) = some c := by
    intro k c hc
    rw [List.getElem?_map] at hc
    obtain ⟨layer, hlayer, rfl⟩ := Option.map_eq_some_iff.mp hc
    rw [Nat.zero_add]
    exact hfilled.layerChunk hlayer
  have hfits : ∀ c ∈ frame.info.layers.map SLayerBSInfo.chunk, c.Fits := by
    intro c hc
    obtain ⟨layer, hlayer, rfl⟩ := List.mem_map.mp hc
    exact (hfilled.layers layer hlayer).chunk_fits
  have hpayload : (frame.info.layers.map SLayerBSInfo.chunk).flatMap Chunk.bytes =
      frame.info.payload := List.flatMap_map _ _ _
  have hcount : (frame.info.layers.map SLayerBSInfo.chunk).length = frame.info.iLayerNum.toNat := by
    rw [List.length_map, SFrameBSInfo.layers, List.length_take, Nat.min_eq_left hfilled.count]
  have hint := hfilled.int
  rw [← hfilled.size, ← hfilled.length_payload] at hint
  obtain ⟨heap', packet, hloop, hbytes, hkeeps, hheld⟩ :=
    appendLoop_eq fresh hchunks hfits (Pkt.empty_held heap)
      (show 0 + _ < 2 ^ 32 by rw [hpayload]; omega)
  rw [hpayload] at hbytes
  rw [hcount] at hloop
  refine ⟨heap', packet, ?_, hbytes, hkeeps, hheld⟩
  rw [assemble, if_pos hskip, hempty, hloop]
  rfl

@[simp] theorem Encoded.mark_packet (out : Encoded) (type : EVideoFrameType) :
    (out.mark type).packet = out.packet := by
  cases type <;> simp only [mark, ite_self, apply_ite Encoded.packet]

theorem Encoded.mark_isKeyframe {out : Encoded} (hpos : 0 < out.packet.pktSize)
    (type : EVideoFrameType) : (out.mark type).isKeyframe = true ↔ type = .idr ∨ type = .i := by
  cases type <;> simp [mark, hpos]

theorem assembled_empty {frame : EncodeFrame} (hcoded : ¬ frame.Coded) {out : Encoded}
    (hempty : out.packet = .empty) (status : Int) (codec : TdH264) :
    EncodeResult.Assembled ⟨status, heap, codec, out⟩ frame ∧ heap.Keeps heap.next heap ∧
      out.packet.Held heap.next heap := by
  refine ⟨⟨fun h => absurd h hcoded, fun h => absurd h hcoded, fun h => absurd h hcoded,
    fun _ => hempty⟩, .refl _ _, ?_⟩
  rw [hempty]
  exact Pkt.empty_held heap

/-- Whatever the frame, `encode` returns its packet, the only block that it leaves. -/
theorem encode_eq {codec : TdH264} {encodeFrame : SSourcePicture → EncodeFrame}
    {yData uData vData : Option Nat} {frame : EncodeFrame} (out : Encoded)
    (hencoder : codec.encoder = true)
    (hframe : encodeFrame (codec.source yData uData vData) = frame)
    (hfilled : frame.Coded → frame.info.Filled) :
    ∃ result, codec.encode fresh encodeFrame heap yData uData vData out = some result ∧
      result.Assembled frame ∧ heap.Keeps heap.next result.heap ∧
      result.out.packet.Held heap.next result.heap := by
  simp only [TdH264.encode, hencoder, if_true, hframe]
  by_cases herr : frame.err = 0
  · rw [if_neg (not_not.mpr herr)]
    by_cases hinvalid : frame.info.eFrameType = .invalid
    · rw [if_pos hinvalid]
      exact ⟨_, rfl, assembled_empty (fun h => h.2.1 hinvalid) rfl _ _⟩
    · rw [if_neg hinvalid]
      by_cases hskip : frame.info.eFrameType = .skip
      · have hpacket : Encoded.packet (Encoded.mark
            { packet := .empty, isKeyframe := false, gotOutput := false } .skip) = .empty :=
          Encoded.mark_packet _ _
        rw [assemble, if_neg (not_not.mpr hskip), hskip]
        exact ⟨_, rfl, assembled_empty (fun h => h.2.2 hskip) hpacket _ _⟩
      · have hcoded : frame.Coded := ⟨herr, hinvalid, hskip⟩
        obtain ⟨heap', packet, hassemble, hbytes, hkeeps, hheld⟩ := assemble_coded fresh
          { packet := .empty, isKeyframe := out.isKeyframe, gotOutput := false }
          hcoded (hfilled hcoded) rfl
        rw [hassemble]
        refine ⟨_, rfl, ⟨fun _ => ?_, fun _ => ?_, fun _ hne => ?_, fun h => absurd hcoded h⟩,
          hkeeps, ?_⟩
        · rw [Encoded.mark_packet]
          exact hbytes
        · rw [Encoded.mark_packet, ← (hfilled hcoded).length_payload, ← hbytes, hheld.length]
        · rw [Encoded.mark_packet] at hne
          apply Encoded.mark_isKeyframe
          rw [← hheld.length]
          exact List.length_pos_iff.mpr hne
        · rw [Encoded.mark_packet]
          exact hheld
  · rw [if_pos herr]
    exact ⟨_, rfl, assembled_empty (fun h => herr h.1) rfl _ _⟩

/-- `encode` puts the layers of a frame together. -/
theorem encode_assembles {codec : TdH264} (hencoder : codec.encoder = true)
    (encodeFrame : SSourcePicture → EncodeFrame) (heap : Heap) (yData uData vData : Option Nat)
    (out : Encoded) {frame : EncodeFrame}
    (hframe : encodeFrame (codec.source yData uData vData) = frame)
    (hfilled : frame.Coded → frame.info.Filled) :
    ∃ result, codec.encode fresh encodeFrame heap yData uData vData out = some result ∧
      result.Assembled frame ∧ result.out.packet.Held heap.next result.heap := by
  obtain ⟨result, hresult, hassembled, -, hheld⟩ :=
    encode_eq fresh out hencoder hframe hfilled
  exact ⟨result, hresult, hassembled, hheld⟩

/-- A frame of two layers, the first with two NAL units. -/
theorem encode_assembles_layers : ∃ result,
    TdH264.encode (fun _ => 0) ⟨{}, true, none, {}, 0⟩
      (fun _ => ⟨0, ⟨2, [⟨2, [1, 2], [9, 8, 7, 6]⟩, ⟨1, [1], [5]⟩, ⟨0, [], []⟩], .idr, 4⟩⟩)
      .empty none none none ⟨.empty, false, false⟩ = some result ∧
    result.Assembled ⟨0, ⟨2, [⟨2, [1, 2], [9, 8, 7, 6]⟩, ⟨1, [1], [5]⟩, ⟨0, [], []⟩], .idr, 4⟩⟩ ∧
    result.out.packet.Held 0 result.heap := by
  refine encode_assembles _ rfl _ _ _ _ _ _ rfl fun _ => ⟨by decide, ?_, by decide, by decide⟩
  intro layer hlayer
  cases hlayer with
  | head => exact ⟨by decide, by decide, by decide, by decide⟩
  | tail _ hsecond =>
      cases hsecond with
      | head => exact ⟨by decide, by decide, by decide, by decide⟩
      | tail _ hrest => cases hrest

end GMProxy.Codec
