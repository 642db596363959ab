import GMProxy.Ps.MuxPack
import GMProxy.Ps.DemuxResult

/-!
# Multiplexing and demultiplexing a frame

What `packagingPs` writes is a well-formed pack, so `parsingPs` gives back the payloads in it. These
are the bytes of the frame when every byte behind the second packet repeats the second packet.
-/

namespace GMProxy.TdPs

open CMemory

variable (fresh : Nat → UInt8) (stream : H264Stream)

/-- The pack of a frame below the size limit, with what it carries. -/
theorem packagingPs_eq (hsize : stream.data.length < h264FrameSizeMax) :
    ∃ (h : PackHeader) (units : List PsUnit),
      packagingPs fresh stream = some (packOf (h.encode ++ encodeUnits units)) ∧
      payloads units = sentPayload stream.data ∧
      (h.encode ++ encodeUnits units).length < 2 ^ 31 := by
  have hmax : h264FrameSizeMax < 2 ^ 28 := by decide
  obtain ⟨h, units, hpackHeader, -, -, hpayloads, hbound, hpack⟩ :=
    packagingPs_units fresh stream (by omega)
  have hhead := hpackHeader.length
  have hfront : payloads (frontUnits stream) = [] ∧
      (encodeUnits (frontUnits stream)).length ≤ 42 := by
    rw [frontUnits]
    split <;> decide
  refine ⟨h, frontUnits stream ++ units, hpack, ?_, ?_⟩
  · rw [payloads, List.flatMap_append, ← payloads, hfront.1, List.nil_append, List.flatMap,
      hpayloads, sentPayload]
  · have hlen := hfront.2
    rw [List.length_append, encodeUnits, List.flatMap_append, List.length_append, ← encodeUnits,
      ← encodeUnits, hhead]
    simp only [psHdrLen, pesHdrLen] at *
    omega

private theorem emittedChunks_length {data : List UInt8} {remain offset : Nat}
    (hin : offset + remain ≤ data.length) :
    (emittedChunks data remain offset).flatten.length = remain := by
  induction remain using Nat.strongRecOn generalizing offset with
  | ind remain ih =>
      unfold emittedChunks
      split
      case isTrue hmore =>
        have hshorter : remain - pesPayloadMax < remain := by
          simp only [pesPayloadMax] at *
          omega
        rw [List.flatten_cons, List.length_append, ih _ hshorter (by omega), List.length_take,
          List.length_drop]
        omega
      case isFalse hlast =>
        rw [List.flatten_cons, List.flatten_nil, List.append_nil, List.length_take,
          List.length_drop]
        omega

private theorem emittedChunks_getElem? {data : List UInt8} {remain : Nat}
    (hin : pesPayloadMax + remain ≤ data.length) {i : Nat} (hi : i < remain) :
    (emittedChunks data remain pesPayloadMax).flatten[i]? =
      data[pesPayloadMax + i % pesPayloadMax]? := by
  induction remain using Nat.strongRecOn generalizing i with
  | ind remain ih =>
      have hpos : 0 < pesPayloadMax := by decide
      unfold emittedChunks
      split
      case isTrue hmore =>
        have hchunk : ((data.drop pesPayloadMax).take pesPayloadMax).length = pesPayloadMax := by
          rw [List.length_take, List.length_drop]
          omega
        rw [List.flatten_cons]
        by_cases hfirst : i < pesPayloadMax
        · rw [List.getElem?_append_left (by omega), List.getElem?_take_of_lt hfirst,
            List.getElem?_drop, Nat.mod_eq_of_lt hfirst]
        · rw [List.getElem?_append_right (by omega), hchunk,
            ih _ (by omega) (by omega) (by omega), ← Nat.mod_eq_sub_mod (by omega)]
      case isFalse hlast =>
        rw [List.flatten_cons, List.flatten_nil, List.append_nil, List.getElem?_take_of_lt hi,
          List.getElem?_drop, Nat.mod_eq_of_lt (by omega)]

/-- Every byte behind the second packet's end is the byte at the same place of the second packet. -/
def RepeatsSecondPacket (data : List UInt8) : Prop :=
  ∀ j < data.length - pesPayloadMax,
    data[pesPayloadMax + j]? = data[pesPayloadMax + j % pesPayloadMax]?

instance (data : List UInt8) : Decidable (RepeatsSecondPacket data) :=
  inferInstanceAs (Decidable (∀ j < data.length - pesPayloadMax, _))

/-- Frames of at most two packets repeat nothing. -/
theorem repeatsSecondPacket_of_le {data : List UInt8} (h : data.length ≤ 2 * pesPayloadMax) :
    RepeatsSecondPacket data := by
  intro j hj
  rw [Nat.mod_eq_of_lt (by omega)]

theorem sentPayload_length (data : List UInt8) : (sentPayload data).length = data.length :=
  emittedChunks_length (by omega)

private theorem sentPayload_getElem?_first {data : List UInt8} {i : Nat} (h : i < pesPayloadMax) :
    (sentPayload data)[i]? = data[i]? := by
  unfold sentPayload emittedChunks
  split
  case isTrue hmore =>
    have hchunk : ((data.drop 0).take pesPayloadMax).length = pesPayloadMax := by
      rw [List.length_take, List.drop_zero]
      omega
    rw [List.flatten_cons, List.getElem?_append_left (by omega), List.drop_zero,
      List.getElem?_take_of_lt h]
  case isFalse hlast =>
    rw [List.flatten_cons, List.flatten_nil, List.append_nil, List.drop_zero, List.take_length]

private theorem sentPayload_getElem?_behind {data : List UInt8} {j : Nat}
    (h : j < data.length - pesPayloadMax) :
    (sentPayload data)[pesPayloadMax + j]? = data[pesPayloadMax + j % pesPayloadMax]? := by
  have hchunk : ((data.drop 0).take pesPayloadMax).length = pesPayloadMax := by
    rw [List.length_take, List.drop_zero]
    omega
  unfold sentPayload emittedChunks
  rw [if_pos (by omega), List.flatten_cons, List.getElem?_append_right (by omega), hchunk,
    Nat.add_sub_cancel_left, emittedChunks_getElem? (by omega) h]

private theorem sentPayload_eq_iff {data : List UInt8} :
    sentPayload data = data ↔ RepeatsSecondPacket data := by
  constructor
  · intro hsent j hj
    rw [← sentPayload_getElem?_behind hj, hsent]
  · intro hrepeats
    apply List.ext_getElem?
    intro i
    by_cases hfirst : i < pesPayloadMax
    · exact sentPayload_getElem?_first hfirst
    · by_cases hin : i < data.length
      · obtain ⟨j, rfl⟩ : ∃ j, i = pesPayloadMax + j := ⟨i - pesPayloadMax, by omega⟩
        have hj : j < data.length - pesPayloadMax := by omega
        rw [sentPayload_getElem?_behind hj, hrepeats j hj]
      · have hsent := sentPayload_length data
        rw [List.getElem?_eq_none (by omega), List.getElem?_eq_none (by omega)]

/-- Demultiplexing what `packagingPs` writes gives back the frame. -/
def RoundTrips : Prop :=
  ∃ pack, packagingPs fresh stream = some pack ∧
    ∃ fuel result, parsingPs pack.outData pack.outlength fuel = .leave (.returned result) ∧
      result.outlength = stream.data.length ∧ result.outData.getD [] = stream.data

private theorem roundTrips_iff_sent (hsize : stream.data.length < h264FrameSizeMax) :
    RoundTrips fresh stream ↔ sentPayload stream.data = stream.data := by
  obtain ⟨h, units, hpack, hpayloads, hfits⟩ := packagingPs_eq fresh stream hsize
  have hends : Ends (h.encode ++ encodeUnits units) (.returned (resultOf (sentPayload stream.data))) := by
    have hwhole : h.encode ++ encodeUnits units = h.encode ++ (encodeUnits units ++ []) := by
      rw [List.append_nil]
    have hend := ends_of_wellFormed (b := ⟨h.encode ++ encodeUnits units, hfits⟩) hwhole (by decide)
    have hkept : keepAll [] units = sentPayload stream.data := by
      rw [keepAll_eq_append (by
        rw [List.length_nil, Nat.zero_add, hpayloads, sentPayload_length]
        exact hsize), List.nil_append, hpayloads]
    rw [hkept] at hend
    exact hend
  constructor
  · rintro ⟨pack, hsome, fuel, result, hrun, -, hdata⟩
    rw [hpack] at hsome
    cases hsome
    have hresult := PsEnd.returned.inj (hends.unique ⟨fuel, hrun⟩)
    rw [← hresult, resultOf_outData] at hdata
    exact hdata
  · intro hsent
    rw [hsent] at hends
    obtain ⟨fuel, hrun⟩ := hends
    exact ⟨_, hpack, fuel, _, hrun, rfl, resultOf_outData _⟩

/-- A frame below the size limit comes back unchanged exactly when every byte behind its second
packet repeats that packet. -/
theorem packagingPs_roundTrips_iff (hsize : stream.data.length < h264FrameSizeMax) :
    RoundTrips fresh stream ↔ RepeatsSecondPacket stream.data :=
  (roundTrips_iff_sent fresh stream hsize).trans sentPayload_eq_iff

private def smallFrame : H264Stream where
  isIframe := 1
  pts := 90000
  dts := 90000
  size := 5
  data := [0x00, 0x00, 0x01, 0x65, 0x88]
  size_eq := rfl

theorem packagingPs_roundTrips_small : RoundTrips (fun _ => 0) smallFrame :=
  (packagingPs_roundTrips_iff _ smallFrame (by decide)).mpr (repeatsSecondPacket_of_le (by decide))

/-- A frame of two full packets of zeros and one more byte. -/
def threePackets : H264Stream where
  isIframe := 0
  pts := 0
  dts := 0
  size := 129949
  data := List.replicate 129948 0 ++ [1]
  size_eq := by
    rw [List.length_append, List.length_replicate]
    rfl

/-- The third packet carries the second packet's first byte in place of its own. -/
theorem threePackets_not_roundTrips : ¬ RoundTrips (fun _ => 0) threePackets := by
  have hlen : threePackets.data.length = 129949 := threePackets.size_eq.symm
  intro htrips
  rw [roundTrips_iff_sent _ _ (by rw [hlen]; decide)] at htrips
  have hbyte := sentPayload_getElem?_behind (j := 64974) (show 64974 < threePackets.data.length - pesPayloadMax by
      rw [hlen]
      decide)
  rw [htrips] at hbyte
  have hlast : threePackets.data[129948]? = some 1 := by
    rw [threePackets, List.getElem?_append_right (Nat.le_of_eq List.length_replicate),
      List.length_replicate]
    rfl
  have hfirst : threePackets.data[64974]? = some 0 := by
    rw [threePackets, List.getElem?_append_left (by rw [List.length_replicate]; decide),
      List.getElem?_replicate_of_lt (by decide)]
  rw [show pesPayloadMax + 64974 = 129948 from rfl, hlast,
    show pesPayloadMax + 64974 % pesPayloadMax = 64974 from rfl, hfirst] at hbyte
  exact absurd hbyte (by decide)

end GMProxy.TdPs
