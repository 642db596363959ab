import GMProxy.Ps.Headers

/-!
# The pack that the multiplexer writes

`packagingPs` writes a pack header, for an I-frame a system header and a stream map, and then video
packets, all with the time stamps of the frame.
-/

namespace GMProxy.TdPs

open CMemory

variable (fresh : Nat → UInt8) (stream : H264Stream)

/-- The payloads of the packets, for `remain` bytes left and the source offset at `offset`. -/
def emittedChunks (data : List UInt8) (remain offset : Nat) : List (List UInt8) :=
  if pesPayloadMax < remain then
    (data.drop offset).take pesPayloadMax ::
      emittedChunks data (remain - pesPayloadMax) pesPayloadMax
  else [(data.drop offset).take remain]
termination_by remain
decreasing_by
  simp only [pesPayloadMax] at *
  omega

def sentPayload (data : List UInt8) : List UInt8 := (emittedChunks data data.length 0).flatten

/-- A video packet with the time stamps of the frame. -/
def PsUnit.Stamped (u : PsUnit) (stream : H264Stream) : Prop :=
  HasClock u.encode 76 stream.pts ∧ HasClock u.encode 116 stream.dts

/-- The unit is a PES header of the frame and its payload. -/
def PsUnit.Framed (u : PsUnit) (stream : H264Stream) : Prop :=
  ∃ header, IsPesHeader header 0xE0 u.payload.length stream.pts stream.dts ∧
    u.encode = header ++ u.payload

def packOf (bytes : List UInt8) : PsPack := ⟨bytes, bytes.length⟩

private theorem writeAt_append (block : List UInt8) {room written : List UInt8}
    {w : List UInt8 → List UInt8} (hwrite : w room = written) :
    writeAt (block ++ room) block.length w = block ++ written := by
  rw [writeAt, List.take_left' rfl, List.drop_left' rfl, hwrite]

private theorem appendPes_eq (bytes : List UInt8) {offset payloadLen : Nat}
    (hmax : payloadLen ≤ pesPayloadMax) (hin : offset + payloadLen ≤ stream.data.length)
    (hfits : bytes.length + payloadLen < 2 ^ 33) :
    ∃ u : PsUnit, u.payload = (stream.data.drop offset).take payloadLen ∧
      u.encode.length = pesHdrLen + payloadLen ∧ (u.Stamped stream ∧ u.Framed stream) ∧
      appendPes fresh stream (packOf bytes) offset payloadLen =
        some (packOf (bytes ++ u.encode)) := by
  have hchunk : ((stream.data.drop offset).take payloadLen).length = payloadLen := by
    rw [List.length_take, List.length_drop]
    omega
  obtain ⟨u, header, hpayload, hheader, hencode, hstamped, hwrite⟩ :=
    exists_pesUnit stream.pts stream.dts (by rw [hchunk]; exact hmax)
  rw [hchunk] at hwrite
  obtain ⟨fields, hfields, hwrites⟩ := makePesHeader_isPesHeader 0xE0
    (show payloadLen ≤ 65522 by simp only [pesPayloadMax] at hmax; omega) stream.pts stream.dts
  have hsame : fields = header := hwrites.unique
    (fun pData hfit => by rw [hheader] at hfit ⊢; exact hwrite pData hfit)
    (hfields.length.trans hheader.symm)
  have hframed : u.Framed stream := by
    refine ⟨header, ?_, by rw [hencode, hpayload]⟩
    rw [hpayload, hchunk, ← hsame]
    exact hfields
  have hlen : u.encode.length = pesHdrLen + payloadLen := by
    rw [hencode, List.length_append, hheader, hchunk]
  have hsize : toSize ((bytes.length : Int) + pesHdrLen + payloadLen) =
      bytes.length + (pesHdrLen + payloadLen) := by
    rw [toSize_of_nonneg (by omega) (by simp only [pesHdrLen]; omega)]
    omega
  have hcount : toSize (payloadLen : Int) = payloadLen := by
    rw [toSize_of_nonneg (by omega) (by omega)]
    omega
  obtain ⟨room, hroom, hgrow⟩ := exists_realloc_grow fresh bytes (pesHdrLen + payloadLen)
  have hwritten := writeAt_append bytes
    (w := fun pData => makePesHeader pData 0xE0 payloadLen stream.pts stream.dts)
    (hwrite room (by omega))
  have hcursor : (bytes ++ header).length = bytes.length + pesHdrLen := by
    rw [List.length_append, hheader]
  have hstored : store (bytes ++ header ++ room.drop pesHdrLen) (bytes.length + pesHdrLen)
      ((stream.data.drop offset).take payloadLen) = bytes ++ u.encode := by
    rw [← hcursor, store_append (by rw [List.length_drop, hroom, hchunk, Nat.add_sub_cancel_left]),
      hencode, List.append_assoc]
  refine ⟨u, hpayload, hlen, ⟨hstamped, hframed⟩, ?_⟩
  rw [← List.append_assoc] at hwritten
  simp only [appendPes, packOf, hsize, hgrow, hwritten, hcount, memcpy_of_le hin,
    Option.bind_eq_bind, Option.bind_some, hstored, Int.toNat_natCast, List.length_append, hlen]
  rw [Nat.add_assoc]
  rfl

private theorem packLoop_eq {remain offset : Nat} (hin : offset + remain ≤ stream.data.length)
    (bytes : List UInt8) (hfits : bytes.length + 2 * remain < 2 ^ 33) :
    ∃ units : List PsUnit, units.map PsUnit.payload = emittedChunks stream.data remain offset ∧
      (encodeUnits units).length ≤ 2 * remain + pesHdrLen ∧
      (∀ u ∈ units, u.Stamped stream ∧ u.Framed stream) ∧
      packLoop fresh stream remain offset (packOf bytes) =
        some (packOf (bytes ++ encodeUnits units)) := by
  induction remain using Nat.strongRecOn generalizing offset bytes with
  | ind remain ih =>
      unfold emittedChunks packLoop
      by_cases hmore : pesPayloadMax < remain
      · obtain ⟨u, hpayload, hlen, hstamped, happend⟩ := appendPes_eq fresh stream bytes
          (Nat.le_refl pesPayloadMax) (show offset + pesPayloadMax ≤ _ by omega) (by omega)
        have hshorter : remain - pesPayloadMax < remain := by
          simp only [pesPayloadMax] at *
          omega
        have hroom : (bytes ++ u.encode).length + 2 * (remain - pesPayloadMax) < 2 ^ 33 := by
          rw [List.length_append, hlen]
          simp only [pesPayloadMax, pesHdrLen] at *
          omega
        obtain ⟨units, hpayloads, hbound, hstampeds, hloop⟩ :=
          ih _ hshorter (show pesPayloadMax + _ ≤ _ by omega) (bytes ++ u.encode) hroom
        refine ⟨u :: units, ?_, ?_, List.forall_mem_cons.mpr ⟨hstamped, hstampeds⟩, ?_⟩
        · rw [if_pos hmore, List.map_cons, hpayload, hpayloads]
        · rw [encodeUnits, List.flatMap_cons, List.length_append, hlen]
          simp only [encodeUnits, pesPayloadMax, pesHdrLen] at *
          omega
        · have hsub : (remain : Int) - pesPayloadMax = ((remain - pesPayloadMax : Nat) : Int) := by
            omega
          rw [if_pos (by omega), happend, Option.bind_eq_bind, Option.bind_some, hsub, hloop,
            encodeUnits, encodeUnits, List.flatMap_cons, List.append_assoc]
      · obtain ⟨u, hpayload, hlen, hstamped, happend⟩ := appendPes_eq fresh stream bytes
          (Nat.le_of_not_lt hmore) hin (by omega)
        refine ⟨[u], ?_, ?_, List.forall_mem_singleton.mpr hstamped, ?_⟩
        · rw [if_neg hmore, List.map_cons, List.map_nil, hpayload]
        · rw [encodeUnits, List.flatMap_cons, List.flatMap_nil, List.append_nil, hlen]
          omega
        · rw [if_neg (by omega), happend, encodeUnits, List.flatMap_cons, List.flatMap_nil,
            List.append_nil]

private theorem appendSystem_eq (bytes : List UInt8) :
    appendSystem fresh (packOf bytes) =
      packOf (bytes ++ encodeUnits [sysHeaderUnit, psmHeaderUnit]) := by
  obtain ⟨room, hroom, hgrow⟩ := exists_realloc_grow fresh bytes (sysHdrLen + psmHdrLen)
  have hsys := writeAt_append bytes (makeSysHeader_eq (show _ ≤ room.length by omega))
  have hcursor : (bytes ++ sysHeaderUnit.encode).length = bytes.length + sysHdrLen :=
    List.length_append
  have hpsm := writeAt_append (bytes ++ sysHeaderUnit.encode)
    (makePsmHeader_eq (show _ ≤ (room.drop sysHdrLen).length by rw [List.length_drop]; omega))
  have hfilled : (room.drop sysHdrLen).drop psmHdrLen = [] :=
    List.drop_eq_nil_of_le (by rw [List.length_drop]; omega)
  rw [hcursor, hfilled, List.append_nil] at hpsm
  rw [← List.append_assoc] at hsys
  rw [← Nat.add_assoc] at hgrow
  have hunits : bytes ++ encodeUnits [sysHeaderUnit, psmHeaderUnit] =
      bytes ++ sysHeaderUnit.encode ++ psmHeaderUnit.encode := by
    rw [List.append_assoc]
    rfl
  have hlen : (bytes ++ sysHeaderUnit.encode ++ psmHeaderUnit.encode).length =
      bytes.length + sysHdrLen + psmHdrLen := by
    rw [List.length_append, hcursor]
    rfl
  simp only [appendSystem, packOf, hgrow, hsys, hpsm, hunits, hlen]

/-- The units in front of the video packets. -/
def frontUnits : List PsUnit := if stream.isIframe ≠ 0 then [sysHeaderUnit, psmHeaderUnit] else []

/-- What `packagingPs` writes is a pack header and complete units. -/
theorem packagingPs_units (hsize : stream.data.length < 2 ^ 31) :
    ∃ (h : PackHeader) (units : List PsUnit), IsPackHeader h.encode stream.pts ∧
      HasClock h.encode 34 stream.pts ∧ (∀ u ∈ units, u.Stamped stream ∧ u.Framed stream) ∧
      units.map PsUnit.payload = emittedChunks stream.data stream.data.length 0 ∧
      (encodeUnits units).length ≤ 2 * stream.data.length + pesHdrLen ∧
      packagingPs fresh stream =
        some (packOf (h.encode ++ encodeUnits (frontUnits stream ++ units))) := by
  obtain ⟨h, hhead, hclock, hpack⟩ := makePsHeader_eq stream.pts
  obtain ⟨fields, hfields, hwrites⟩ := makePsHeader_isPackHeader stream.pts
  have hsame : fields = h.encode := hwrites.unique
    (fun pData hfit => by rw [hhead] at hfit ⊢; exact hpack pData hfit)
    (hfields.length.trans hhead.symm)
  obtain ⟨room, hroom, hgrow⟩ := exists_realloc_grow fresh [] psHdrLen
  have hremain : toInt stream.size.toNat = stream.data.length := by
    rw [stream.size_eq]
    exact toInt_of_mem (by omega) (by omega)
  have hfilled : room.drop psHdrLen = [] := List.drop_eq_nil_of_le (by omega)
  have hwritten := writeAt_append [] (w := fun pData => makePsHeader pData stream.pts)
    (hpack room (by omega))
  rw [hfilled, List.append_nil, List.nil_append, List.nil_append] at hwritten
  rw [List.length_nil, Nat.zero_add, List.nil_append] at hgrow
  rw [List.length_nil] at hwritten
  have hfront : (if stream.isIframe ≠ 0 then appendSystem fresh (packOf h.encode)
      else packOf h.encode) = packOf (h.encode ++ encodeUnits (frontUnits stream)) := by
    rw [frontUnits]
    split
    · exact appendSystem_eq fresh h.encode
    · rw [encodeUnits, List.flatMap_nil, List.append_nil]
  have hlen : (encodeUnits (frontUnits stream)).length ≤ 42 := by
    rw [frontUnits]
    split <;> decide
  have hroomLeft : (h.encode ++ encodeUnits (frontUnits stream)).length +
      2 * stream.data.length < 2 ^ 33 := by
    rw [List.length_append, hhead]
    simp only [psHdrLen] at *
    omega
  obtain ⟨units, hpayloads, hbound, hstamped, hloop⟩ := packLoop_eq fresh stream
    (show 0 + stream.data.length ≤ _ by omega) (h.encode ++ encodeUnits (frontUnits stream)) hroomLeft
  refine ⟨h, units, hsame ▸ hfields, hclock, hstamped, hpayloads, hbound, ?_⟩
  have hstart : (⟨writeAt (realloc fresh [] psHdrLen) 0 fun pData =>
      makePsHeader pData stream.pts, psHdrLen⟩ : PsPack) = packOf h.encode := by
    rw [packOf, hhead, hgrow, hwritten]
  have hunits : encodeUnits (frontUnits stream ++ units) =
      encodeUnits (frontUnits stream) ++ encodeUnits units := List.flatMap_append
  rw [packagingPs, hremain, hstart, hfront, hunits, ← List.append_assoc]
  exact hloop

end GMProxy.TdPs
