import GMProxy.Codec.Encode
import GMProxy.Library.Machine
import GMProxy.Scale.Frames

/-!
# The blocks of a conversion

`TdH264::convert` over the heap. Each call makes a record for the scaled frame, scales into its planes
and encodes them; the caller gets the packet and gives it back when it is done with it.
-/

namespace GMProxy.Codec

open Heap Machine
open TdChannel (CodecParam)
open TdScale (YUVFrame newEmptyYUVFrame scale scratchFrame freeYUVFrame)

/-- What `DecodeFrame2` stores: the planes of a picture and its `SBufferInfo`. -/
structure Decoded where
  yData : Option Nat
  uData : Option Nat
  vData : Option Nat
  iBufferStatus : Int
  iWidth : Int
  iHeight : Int
  iFormat : Int
  yStride : Int
  uvStride : Int
deriving DecidableEq

/-- A call of `convert`: its input, what the decoder, `I420Scale` and the encoder make of it, and the
packet that `*outDate` and `*outSize` stand for before. -/
structure Call where
  inDate : Option (List UInt8)
  decodeFrame2 : List UInt8 → Decoded
  i420Scale : YUVFrame → YUVFrame → Int
  encodeFrame : SSourcePicture → EncodeFrame
  filled : ∀ picture, (encodeFrame picture).Coded → (encodeFrame picture).info.Filled
  out : Pkt

/-- The codec, the heap, and what the last call has returned through its arguments. -/
structure Converter where
  heap : Heap
  codec : TdH264
  out : Pkt
  isKeyFrame : Bool
deriving DecidableEq

/-- The source of the scaling; its sizes are not set. -/
def Decoded.srcFrame (decoded : Decoded) : YUVFrame :=
  ⟨⟨decoded.yData, 0⟩, ⟨decoded.uData, 0⟩, ⟨decoded.vData, 0⟩, decoded.yStride, decoded.uvStride,
    decoded.iWidth, decoded.iHeight⟩

/-- Without an encoder the call goes through a null pointer. -/
def TdH264.setEncoderParam (codec : TdH264) (param : EncoderParam) : Option TdH264 :=
  if codec.encoder then some { codec with encParam := some param } else none

def TdH264.setPicture (codec : TdH264) (width height yStride uvStride : Int) : TdH264 :=
  { codec with picture := {
      iPicHeight := height
      iPicWidth := width
      iColorFormat := videoFormatI420
      yStride := yStride
      uvStride := uvStride } }

/-- The branch of `convert` for a codec whose parameters were set. -/
def TdH264.refresh (codec : TdH264) (dstFrame : YUVFrame) : Option TdH264 :=
  if codec.param.mIsRefresh then do
    let codec ← codec.setEncoderParam
      (encoderParam dstFrame.width dstFrame.height 400000 codec.param.mMaxBitrate codec.param.mRate)
    some { codec with param := codec.param.setCodecParamRefresh false }
  else some codec

namespace Converter

variable (fresh : Nat → UInt8) (s : Converter)

/-- From `newEmptyYUVFrame` to `freeYUVFrame`. -/
def transcode (call : Call) (decoded : Decoded) : Option (Int × Converter) := do
  let (heap, _, dstFrame) := newEmptyYUVFrame s.heap
  let dstFrame :=
    { dstFrame with height := s.codec.param.mHeight, width := s.codec.param.mWidth }
  let codec ← s.codec.refresh dstFrame
  let (status, heap, dstFrame) ← scale call.i420Scale heap decoded.srcFrame dstFrame
  if status ≠ 0 then some (-1, { s with heap := heap, codec := codec })
  else do
    let codec := codec.setPicture dstFrame.width dstFrame.height dstFrame.yStride dstFrame.uvStride
    let result ← codec.encode fresh call.encodeFrame heap dstFrame.y.data dstFrame.u.data
      dstFrame.v.data ⟨s.out, s.isKeyFrame, false⟩
    let (heap, _) ← freeYUVFrame result.heap dstFrame
    some (0, ⟨heap, result.codec, result.out.packet, result.out.isKeyframe⟩)

def convert (call : Call) : Option (Int × Converter) :=
  let s := { s with out := call.out }
  match call.inDate with
  | none => some (-1, s)
  | some inDate =>
      let s := { s with out := { s.out with pktSize := 0 }, isKeyFrame := false }
      let decoded := call.decodeFrame2 inDate
      if decoded.iBufferStatus = 1 then
        if decoded.iFormat = videoFormatI420 then s.transcode fresh call decoded
        else some (0, s)
      else some (0, s)

end Converter

/-- Parameters are set, a frame is converted, or the caller gives a packet back. -/
inductive CodecEvent where
  | setParam (param : CodecParam)
  | convert (call : Call)
  | release (block : Option Nat)

/-- A caller has no pointer to a block that was never handed out. -/
def convertStep (fresh : Nat → UInt8) (s : Converter) : CodecEvent → Option Converter
  | .setParam param => some { s with codec := { s.codec with param := s.codec.param.setParam param } }
  | .convert call =>
      if ∀ id ∈ call.out.pkt, id < s.heap.next then (s.convert fresh call).map (·.2) else none
  | .release block => (s.heap.free block).map fun heap => { s with heap := heap }

/-- The packet is the only block of the call that is live when it returns. -/
def LeavesOnlyPacket (fresh : Nat → UInt8) (s : Converter) : CodecEvent → Prop
  | .convert call => ∀ status s', s.convert fresh call = some (status, s') →
      ∀ id ∈ s'.heap.live, id ∉ s.heap.live → s'.out.pkt = some id
  | _ => True

/-- The decoder has a picture for the scaler. -/
def Call.HasPicture (call : Call) : Prop :=
  ∃ inDate, call.inDate = some inDate ∧ (call.decodeFrame2 inDate).iBufferStatus = 1 ∧
    (call.decodeFrame2 inDate).iFormat = videoFormatI420

/-- The input decodes to no picture for the scaler. -/
def DecodesNothing (_ : Converter) : CodecEvent → Prop
  | .convert call => ¬ call.HasPicture
  | _ => True

variable (fresh : Nat → UInt8) {s : Converter} {call : Call} {decoded : Decoded}

/-- With or without an encoder, `encode` leaves its packet and nothing else. -/
theorem exists_encode (call : Call) (codec : TdH264) (heap : Heap) (yData uData vData : Option Nat)
    (out : Encoded) (hout : ∀ id, out.packet.pkt = some id → id < heap.next) :
    ∃ result, codec.encode fresh call.encodeFrame heap yData uData vData out = some result ∧
      heap.Keeps heap.next result.heap ∧
      (∀ id, heap.next ≤ id → (id ∈ result.heap.live ↔ result.out.packet.pkt = some id)) ∧
      ∀ id, result.out.packet.pkt = some id → heap.next ≤ id ∨ out.packet.pkt = some id := by
  by_cases hencoder : codec.encoder = true
  · obtain ⟨result, hresult, -, hkeeps, hheld⟩ :=
      encode_eq fresh out hencoder rfl (call.filled (codec.source yData uData vData))
    exact ⟨result, hresult, hkeeps, hheld.owned.live_iff,
      fun id hid => Or.inl (hheld.owned.above id hid)⟩
  · refine ⟨⟨0, heap, codec, { out with gotOutput := false }⟩, ?_, .refl _ _, ?_,
      fun id hid => Or.inr hid⟩
    · rw [TdH264.encode, if_neg hencoder]
    · intro id hid
      constructor
      · intro hlive
        exact absurd (heap.fresh id hlive) (Nat.not_lt.mpr hid)
      · intro hpkt
        exact absurd (hout id hpkt) (Nat.not_lt.mpr hid)

/-- What a transcoding leaves beside the packet: the record of the scaled frame, and behind a scaling
that failed the three scratch planes. -/
structure Leaves (heap : Heap) (s' : Converter) (status : Int) : Prop where
  kept : heap.Keeps heap.next s'.heap
  live_iff : ∀ id, heap.next ≤ id → (id ∈ s'.heap.live ↔ id = heap.next ∨
    (status ≠ 0 ∧ id ≤ heap.next + 3) ∨ (status = 0 ∧ s'.out.pkt = some id))
  notRecord : s'.out.pkt ≠ some heap.next

/-- The scaled frame before its scaling. -/
def Converter.dstFrame (s : Converter) : YUVFrame :=
  { YUVFrame.zero with height := s.codec.param.mHeight, width := s.codec.param.mWidth }

theorem not_mem_of_next_le {heap : Heap} {id : Nat} (hid : heap.next ≤ id) : id ∉ heap.live :=
  fun hlive => absurd (heap.fresh id hlive) (Nat.not_lt.mpr hid)

theorem transcode_failed {codec : TdH264} (hout : ∀ id, s.out.pkt = some id → id < s.heap.next)
    (hrefresh : s.codec.refresh s.dstFrame = some codec)
    (hstatus : call.i420Scale decoded.srcFrame (scratchFrame s.heap.malloc s.dstFrame).2 ≠ 0) :
    ∃ s', s.transcode fresh call decoded = some (-1, s') ∧ Leaves s.heap s' (-1) := by
  refine ⟨{ s with heap := s.heap.malloc.malloc.malloc.malloc, codec := codec }, ?_, ?_⟩
  · rw [Converter.dstFrame] at hrefresh hstatus
    simp only [Converter.transcode, newEmptyYUVFrame, hrefresh, TdScale.scale_failed hstatus,
      Option.bind_eq_bind, Option.bind_some]
    rfl
  · have hmem (id : Nat) : id ∈ s.heap.malloc.malloc.malloc.malloc.live ↔
        id = s.heap.next + 3 ∨ id = s.heap.next + 2 ∨ id = s.heap.next + 1 ∨
          id = s.heap.next ∨ id ∈ s.heap.live := by
      simp only [mem_malloc, malloc_next]
    refine ⟨⟨Nat.le_add_right _ 4, fun id hid => ?_⟩, fun id hid => ?_, ?_⟩
    · have hne : id ≠ s.heap.next + 3 ∧ id ≠ s.heap.next + 2 ∧ id ≠ s.heap.next + 1 ∧
          id ≠ s.heap.next := by omega
      rw [hmem]
      simp only [hne, false_or]
    · rw [hmem]
      simp only [not_mem_of_next_le hid, or_false]
      omega
    · intro hpkt
      exact absurd (hout _ hpkt) (Nat.lt_irrefl _)

/-- The blocks behind a scaling (`heap₁`), an encoding (`heap₂`) and `freeYUVFrame` (`s'.heap`): the
record, three planes and the packet, then all but the planes. -/
theorem leaves_scaled {heap heap₁ heap₂ : Heap} {s' : Converter}
    (hscaled : heap₁.next = heap.next + 7 ∧ ∀ id, id ∈ heap₁.live ↔ id = heap.next + 4 ∨
      id = heap.next + 5 ∨ id = heap.next + 6 ∨ id ∈ heap.malloc.live)
    (hkeeps : heap₁.Keeps heap₁.next heap₂)
    (hpacket : ∀ id, heap₁.next ≤ id → (id ∈ heap₂.live ↔ s'.out.pkt = some id))
    (hfar : ∀ id, s'.out.pkt = some id → heap.next + 7 ≤ id ∨ id < heap.next)
    (hfreed : s'.heap.next = heap₂.next ∧ ∀ id, id ∈ s'.heap.live ↔ id ≠ heap.next + 4 ∧
      id ≠ heap.next + 5 ∧ id ≠ heap.next + 6 ∧ id ∈ heap₂.live) : Leaves heap s' 0 := by
  obtain ⟨hnext₁, hlive₁⟩ := hscaled
  obtain ⟨hnext', hlive'⟩ := hfreed
  rw [hnext₁] at hkeeps hpacket
  have hbelow (id : Nat) (hid : id < heap.next + 7) : id ∈ s'.heap.live ↔
      id = heap.next ∨ id ∈ heap.live := by
    rw [hlive', hkeeps.live_iff id hid, hlive₁, mem_malloc]
    by_cases hold : id ∈ heap.live
    · have hlt := heap.fresh id hold
      simp only [hold, or_true, and_true, iff_true]
      omega
    · simp only [hold, or_false]
      omega
  refine ⟨⟨?_, fun id hid => ?_⟩, fun id hid => ?_, fun hpkt => ?_⟩
  · have hle := hkeeps.next_le
    omega
  · rw [hbelow id (by omega), or_iff_right (Nat.ne_of_lt hid)]
  · by_cases hlt : id < heap.next + 7
    · have hpkt : s'.out.pkt ≠ some id := by
        intro hpkt
        cases hfar id hpkt <;> omega
      rw [hbelow id hlt]
      simp [not_mem_of_next_le hid, hpkt]
    · have hne : id ≠ heap.next + 4 ∧ id ≠ heap.next + 5 ∧ id ≠ heap.next + 6 ∧
          id ≠ heap.next := by omega
      rw [hlive', hpacket id (by omega)]
      simp [hne]
  · cases hfar _ hpkt <;> omega

theorem transcode_scaled {codec : TdH264} (hout : ∀ id, s.out.pkt = some id → id < s.heap.next)
    (hrefresh : s.codec.refresh s.dstFrame = some codec)
    (hstatus : call.i420Scale decoded.srcFrame (scratchFrame s.heap.malloc s.dstFrame).2 = 0) :
    ∃ s', s.transcode fresh call decoded = some (0, s') ∧ Leaves s.heap s' 0 := by
  obtain ⟨heap₁, dstFrame, hscale, hplanes, hnext₁, hlive₁⟩ := TdScale.exists_scale hstatus
  rw [malloc_next] at hplanes hnext₁ hlive₁
  -- everything handed out from here on is the packet's
  obtain ⟨result, hencode, hkeeps, hpacket, habove⟩ := exists_encode fresh call
    (codec.setPicture dstFrame.width dstFrame.height dstFrame.yStride dstFrame.uvStride) heap₁
    dstFrame.y.data dstFrame.u.data dstFrame.v.data ⟨s.out, s.isKeyFrame, false⟩
    (fun id hid => by have hold := hout id hid; omega)
  have hplane (id : Nat) (hid : id = s.heap.next + 4 ∨ id = s.heap.next + 5 ∨
      id = s.heap.next + 6) : id ∈ result.heap.live := by
    rw [hkeeps.live_iff id (by omega), hlive₁]
    omega
  obtain ⟨heap', hfree, hnext', hlive'⟩ := TdScale.exists_freePlanes hplanes
    ⟨hplane _ (by omega), hplane _ (by omega), hplane _ (by omega)⟩
    ⟨by omega, by omega, by omega⟩
  refine ⟨⟨heap', result.codec, result.out.packet, result.out.isKeyframe⟩, ?_,
    leaves_scaled ⟨hnext₁, hlive₁⟩ hkeeps hpacket (fun id hid => ?_) ⟨hnext', hlive'⟩⟩
  · rw [Converter.dstFrame] at hrefresh hscale
    simp only [Converter.transcode, newEmptyYUVFrame, hrefresh, hscale, hencode, freeYUVFrame,
      hfree, Option.bind_eq_bind, Option.bind_some]
    rfl
  · exact (habove id hid).imp (fun hle => by omega) (hout id)

/-- A transcoding that reaches an encoder, or needs none, returns. -/
theorem transcode_leaves (call : Call) (decoded : Decoded) {codec : TdH264}
    (hout : ∀ id, s.out.pkt = some id → id < s.heap.next)
    (hrefresh : s.codec.refresh s.dstFrame = some codec) :
    ∃ status s', s.transcode fresh call decoded = some (status, s') ∧ Leaves s.heap s' status := by
  by_cases hstatus :
      call.i420Scale decoded.srcFrame (scratchFrame s.heap.malloc s.dstFrame).2 = 0
  · exact ⟨0, transcode_scaled fresh hout hrefresh hstatus⟩
  · exact ⟨-1, transcode_failed fresh hout hrefresh hstatus⟩

theorem refresh_of_encoder {codec : TdH264} (hencoder : codec.encoder = true)
    (dstFrame : YUVFrame) : ∃ codec', codec.refresh dstFrame = some codec' := by
  rw [TdH264.refresh]
  by_cases hup : codec.param.mIsRefresh = true
  · rw [if_pos hup, TdH264.setEncoderParam, if_pos hencoder]
    exact ⟨_, rfl⟩
  · rw [if_neg hup]
    exact ⟨_, rfl⟩

/-- The accesses of `convert` to the parameters in front of the scaling. -/
def preparing (mIsRefresh : Bool) : List Access :=
  [.readHeight, .readWidth, .testRefresh] ++
    if mIsRefresh then
      [.rereadHeight, .rereadWidth, .readMaxBitrate, .readRate, .setEncoderParam, .clearRefresh]
    else []

/-- Without `setParam` in between, the steps of the converter thread up to the scaling do what
`refresh` does. -/
theorem refresh_run {codec : TdH264} (hrefresh : s.codec.refresh s.dstFrame = some codec)
    (setter : SetterPc) :
    Machine.run step ⟨s.codec.param, s.codec.encParam, setter, .idle⟩
        (preparing s.codec.param.mIsRefresh) =
      some ⟨codec.param, codec.encParam, setter,
        .prepared s.dstFrame.height s.dstFrame.width⟩ := by
  obtain ⟨heap, ⟨⟨width, height, rate, maxBitrate, baseBitrate, up⟩, encoder, encParam, picture,
    timestamp⟩, out, isKeyFrame⟩ := s
  cases up with
  | false =>
      cases Option.some.inj hrefresh
      rfl
  | true =>
      cases encoder with
      | false => cases hrefresh
      | true =>
          cases Option.some.inj hrefresh
          rfl

theorem transcode_stuck (hrefresh : s.codec.refresh s.dstFrame = none) :
    s.transcode fresh call decoded = none := by
  rw [Converter.dstFrame] at hrefresh
  simp only [Converter.transcode, newEmptyYUVFrame, hrefresh, Option.bind_eq_bind,
    Option.bind_none]

/-- Without a picture nothing is allocated; with one, `convert` is the transcoding. -/
theorem convert_cases (s : Converter) (call : Call) :
    (¬ call.HasPicture ∧ ∃ status s', s.convert fresh call = some (status, s') ∧ s'.heap = s.heap) ∨
    (call.HasPicture ∧ ∃ (s₀ : Converter) (decoded : Decoded), s₀.heap = s.heap ∧
      s₀.codec = s.codec ∧ s₀.out.pkt = call.out.pkt ∧
      s.convert fresh call = s₀.transcode fresh call decoded) := by
  cases hinput : call.inDate with
  | none =>
      refine Or.inl ⟨fun hpicture => ?_, -1, { s with out := call.out }, ?_, rfl⟩
      · obtain ⟨inDate, hsome, -⟩ := hpicture
        cases hinput.symm.trans hsome
      · simp only [Converter.convert, hinput]
  | some inDate =>
      have hiff : call.HasPicture ↔ (call.decodeFrame2 inDate).iBufferStatus = 1 ∧
          (call.decodeFrame2 inDate).iFormat = videoFormatI420 := by
        rw [Call.HasPicture, hinput]
        simp
      rw [hiff, Converter.convert, hinput]
      by_cases hstatus : (call.decodeFrame2 inDate).iBufferStatus = 1
      · by_cases hformat : (call.decodeFrame2 inDate).iFormat = videoFormatI420
        · simp only [if_pos hstatus, if_pos hformat]
          exact Or.inr ⟨⟨hstatus, hformat⟩,
            ⟨s.heap, s.codec, { call.out with pktSize := 0 }, false⟩, _, rfl, rfl, rfl, rfl⟩
        · simp only [if_pos hstatus, if_neg hformat]
          exact Or.inl ⟨fun h => hformat h.2, 0, _, rfl, rfl⟩
      · simp only [if_neg hstatus]
        exact Or.inl ⟨fun h => hstatus h.1, 0, _, rfl, rfl⟩

/-- With an encoder every call returns. A call with a picture leaves its packet, the record of the
scaled frame and, if the scaling fails, the scratch planes. -/
theorem convert_leaves (hencoder : s.codec.encoder = true) (hpicture : call.HasPicture)
    (hcaller : ∀ id ∈ call.out.pkt, id < s.heap.next) :
    ∃ status s', s.convert fresh call = some (status, s') ∧ Leaves s.heap s' status := by
  cases convert_cases fresh s call with
  | inl hnothing => exact absurd hpicture hnothing.1
  | inr htranscode =>
      obtain ⟨-, s₀, decoded, hheap, hcodec, hpkt, hconvert⟩ := htranscode
      obtain ⟨codec, hrefresh⟩ := refresh_of_encoder (hcodec ▸ hencoder) s₀.dstFrame
      rw [hconvert, ← hheap]
      apply transcode_leaves fresh call decoded _ hrefresh
      rw [hpkt, hheap]
      exact hcaller

theorem leavesOnlyPacket_iff {s' : Converter} {e : CodecEvent}
    (hstep : convertStep fresh s e = some s') :
    LeavesOnlyPacket fresh s e ↔ DecodesNothing s e := by
  cases e with
  | setParam param => exact Iff.rfl
  | release block => exact Iff.rfl
  | convert call =>
      rw [convertStep] at hstep
      by_cases hcaller : ∀ id ∈ call.out.pkt, id < s.heap.next
      · rw [if_pos hcaller] at hstep
        cases convert_cases fresh s call with
        | inl hnothing =>
            obtain ⟨hpicture, status, s₁, hconvert, hheap⟩ := hnothing
            refine iff_of_true (fun status' s₁' hconvert' id hid hnew => ?_) hpicture
            obtain ⟨-, rfl⟩ := Prod.mk.inj (Option.some.inj (hconvert.symm.trans hconvert'))
            rw [hheap] at hid
            exact absurd hid hnew
        | inr htranscode =>
            obtain ⟨hpicture, s₀, decoded, hheap, -, hpkt, hconvert⟩ := htranscode
            refine iff_of_false (fun hleaves => ?_) (not_not.mpr hpicture)
            cases hrefresh : s₀.codec.refresh s₀.dstFrame with
            | none =>
                rw [hconvert, transcode_stuck fresh hrefresh] at hstep
                cases hstep
            | some codec =>
                obtain ⟨status, s₁, htranscode, hleft⟩ := transcode_leaves fresh call decoded
                  (by rw [hpkt, hheap]; exact hcaller) hrefresh
                rw [hheap] at hleft
                have hrecord := (hleft.live_iff _ (Nat.le_refl _)).mpr (Or.inl rfl)
                exact hleft.notRecord (hleaves status s₁ (hconvert.trans htranscode) _ hrecord
                  (not_mem_of_next_le (Nat.le_refl _)))
      · rw [if_neg hcaller] at hstep
        cases hstep

/-- Every call of a run leaves only its packet exactly where no input decodes to a picture for the
scaler. -/
theorem convert_leavesOnlyPacket_iff (s : Converter) (events : List CodecEvent) :
    StepsMeet (convertStep fresh) (LeavesOnlyPacket fresh) s events ↔
      StepsMeet (convertStep fresh) DecodesNothing s events :=
  stepsMeet_iff (P := fun _ => True) (fun _ _ _ _ _ _ => trivial)
    (fun _ _ _ _ hstep => leavesOnlyPacket_iff fresh hstep) trivial

/-- A codec behind `create`. -/
def created : Converter :=
  ⟨.empty, ⟨({} : TdCodecParam).setCodecParamRefresh true, true, none, {}, 0⟩, .empty, false⟩

/-- A picture that the scaler takes and the encoder skips. -/
def skippedPicture : Call where
  inDate := some [0, 0, 0, 1, 0x65]
  decodeFrame2 := fun _ => ⟨some 101, some 102, some 103, 1, 64, 64, 23, 64, 32⟩
  i420Scale := fun _ _ => 0
  encodeFrame := fun _ => ⟨0, ⟨0, [], .skip, 0⟩⟩
  filled := fun _ hcoded => absurd rfl hcoded.2.2
  out := .empty

/-- The record of the scaled frame stays behind. -/
theorem skippedPicture_leaks : ¬ StepsMeet (convertStep fun _ => 0) (LeavesOnlyPacket fun _ => 0)
    created [.convert skippedPicture] := by
  intro h
  obtain ⟨hleaves, -⟩ := h _ rfl
  have hrecord := hleaves 0 _ rfl 0 (by decide) (by decide)
  cases hrecord

end GMProxy.Codec
