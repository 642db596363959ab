import GMProxy.Ps.RoundTrip

/-!
# The structure of the output

The parts of what `packagingPs` writes: headers with their length fields, and video packets of at
most `pesPayloadMax` bytes.
-/

namespace GMProxy.TdPs

open CMemory

variable {data chunk : List UInt8} {chunks : List (List UInt8)} {remain offset : Nat}

/-- The number of packets for a frame. -/
def packetCount (size : Nat) : Nat := max 1 ((size + (pesPayloadMax - 1)) / pesPayloadMax)

/-- The bytes of `chunk` are read from inside the frame. -/
def InFrame (data chunk : List UInt8) : Prop :=
  ∃ first, first + chunk.length ≤ data.length ∧ chunk = (data.drop first).take chunk.length

/-- The payloads of the packets for `remain` bytes. -/
structure ChunkList (data : List UInt8) (remain : Nat) (chunks : List (List UInt8)) : Prop where
  count : chunks.length = packetCount remain
  full : ∀ chunk ∈ chunks.dropLast, chunk.length = pesPayloadMax
  total : chunks.flatten.length = remain
  inFrame : ∀ chunk ∈ chunks, InFrame data chunk

theorem window_length (hin : offset + remain ≤ data.length) :
    ((data.drop offset).take remain).length = remain := by
  rw [List.length_take, List.length_drop]
  omega

theorem window_inFrame (hin : offset + remain ≤ data.length) :
    InFrame data ((data.drop offset).take remain) := by
  refine ⟨offset, ?_, ?_⟩
  · rw [window_length hin]
    exact hin
  · rw [window_length hin]

theorem ChunkList.single (hlast : remain ≤ pesPayloadMax) (hlen : chunk.length = remain)
    (hframe : InFrame data chunk) : ChunkList data remain [chunk] where
  count := by
    simp only [List.length_singleton, packetCount, pesPayloadMax] at *
    omega
  full := List.forall_mem_nil _
  total := by rw [List.flatten_cons, List.flatten_nil, List.append_nil, hlen]
  inFrame := List.forall_mem_singleton.mpr hframe

theorem ChunkList.cons (h : ChunkList data (remain - pesPayloadMax) chunks)
    (hmore : pesPayloadMax < remain) (hlen : chunk.length = pesPayloadMax)
    (hframe : InFrame data chunk) : ChunkList data remain (chunk :: chunks) where
  count := by
    have hcount := h.count
    simp only [List.length_cons, packetCount, pesPayloadMax] at *
    omega
  full := by
    have hne : chunks ≠ [] := by
      intro hnil
      have hcount := h.count
      rw [hnil, List.length_nil, packetCount] at hcount
      omega
    rw [List.dropLast_cons_of_ne_nil hne]
    exact List.forall_mem_cons.mpr ⟨hlen, h.full⟩
  total := by
    rw [List.flatten_cons, List.length_append, hlen, h.total]
    omega
  inFrame := List.forall_mem_cons.mpr ⟨hframe, h.inFrame⟩

theorem emittedChunks_list (hin : offset + remain ≤ data.length) :
    ChunkList data remain (emittedChunks data remain offset) := by
  induction remain using Nat.strongRecOn generalizing offset with
  | ind remain ih =>
      unfold emittedChunks
      split
      case isTrue hmore =>
        have hfirst : offset + pesPayloadMax ≤ data.length := by omega
        have hshorter : remain - pesPayloadMax < remain := by
          simp only [pesPayloadMax] at *
          omega
        exact (ih _ hshorter (by omega)).cons hmore (window_length hfirst) (window_inFrame hfirst)
      case isFalse hlast =>
        exact ChunkList.single (Nat.le_of_not_lt hlast) (window_length hin) (window_inFrame hin)

/-- A PES packet: its header and its payload. -/
structure PesPacket where
  header : List UInt8
  payload : List UInt8

def PesPacket.bytes (packet : PesPacket) : List UInt8 := packet.header ++ packet.payload

/-- The parts of a pack in their order. -/
structure PackParts where
  pack : List UInt8
  system : List UInt8
  packets : List PesPacket

def PackParts.bytes (parts : PackParts) : List UInt8 :=
  parts.pack ++ parts.system ++ parts.packets.flatMap PesPacket.bytes

/-- A unit whose bits 32 to 47 count the bytes behind them. -/
def LengthCorrect (startCode : Nat) (unit : List UInt8) : Prop :=
  bitField unit 0 32 = startCode ∧ 6 + bitField unit 32 16 = unit.length

/-- A system header of 18 bytes and a stream map of 24. -/
def IsSystemPart (system : List UInt8) : Prop :=
  ∃ header map, system = header ++ map ∧ header.length = sysHdrLen ∧ LengthCorrect 0x1BB header ∧
    map.length = psmHdrLen ∧ LengthCorrect 0x1BC map

variable (fresh : Nat → UInt8) (stream : H264Stream)

/-- The bytes in front of the packets. -/
def frontLength : Nat := if stream.isIframe ≠ 0 then psHdrLen + (sysHdrLen + psmHdrLen) else psHdrLen

/-- The parts are those of the frame. -/
structure PackParts.Carries (parts : PackParts) : Prop where
  pack : IsPackHeader parts.pack stream.pts
  system : if stream.isIframe ≠ 0 then IsSystemPart parts.system else parts.system = []
  count : parts.packets.length = packetCount stream.data.length
  headers : ∀ packet ∈ parts.packets,
    IsPesHeader packet.header 0xE0 packet.payload.length stream.pts stream.dts
  full : ∀ packet ∈ parts.packets.dropLast, packet.payload.length = pesPayloadMax
  inFrame : ∀ packet ∈ parts.packets, InFrame stream.data packet.payload

variable {stream}

theorem frontUnits_system :
    if stream.isIframe ≠ 0 then IsSystemPart (encodeUnits (frontUnits stream))
    else encodeUnits (frontUnits stream) = [] := by
  rw [frontUnits]
  split
  case isTrue =>
    refine ⟨sysHeaderUnit.encode, psmHeaderUnit.encode, ?_, rfl, ⟨by decide, by decide⟩, rfl,
      ⟨by decide, by decide⟩⟩
    rw [encodeUnits, List.flatMap_cons, List.flatMap_cons, List.flatMap_nil, List.append_nil]
  case isFalse => rfl

/-- Units that are framed are packets. -/
theorem exists_packets {units : List PsUnit} (h : ∀ u ∈ units, u.Framed stream) :
    ∃ packets : List PesPacket, packets.map PesPacket.payload = units.map PsUnit.payload ∧
      packets.flatMap PesPacket.bytes = encodeUnits units ∧ ∀ packet ∈ packets,
        IsPesHeader packet.header 0xE0 packet.payload.length stream.pts stream.dts := by
  induction units with
  | nil => exact ⟨[], rfl, rfl, List.forall_mem_nil _⟩
  | cons u units ih =>
      rw [List.forall_mem_cons] at h
      obtain ⟨header, hheader, hencode⟩ := h.1
      obtain ⟨packets, hpayload, hbytes, hheaders⟩ := ih h.2
      refine ⟨⟨header, u.payload⟩ :: packets, ?_, ?_, List.forall_mem_cons.mpr ⟨hheader, hheaders⟩⟩
      · rw [List.map_cons, List.map_cons, hpayload]
      · have hunits : encodeUnits (u :: units) = u.encode ++ encodeUnits units := List.flatMap_cons
        rw [List.flatMap_cons, hbytes, hunits, hencode, PesPacket.bytes]

theorem packets_length {packets : List PesPacket}
    (h : ∀ packet ∈ packets, packet.header.length = pesHdrLen) :
    (packets.flatMap PesPacket.bytes).length =
      pesHdrLen * packets.length + (packets.map PesPacket.payload).flatten.length := by
  induction packets with
  | nil => rfl
  | cons packet packets ih =>
      rw [List.forall_mem_cons] at h
      rw [List.flatMap_cons, List.length_append, ih h.2, PesPacket.bytes, List.length_append, h.1,
        List.map_cons, List.flatten_cons, List.length_append, List.length_cons, Nat.mul_succ]
      omega

/-- What `packagingPs` writes for a frame. -/
theorem packagingPs_structure (hsize : stream.data.length < 2 ^ 30) :
    ∃ parts : PackParts, parts.Carries stream ∧
      packagingPs fresh stream = some (packOf parts.bytes) ∧
      parts.bytes.length =
        frontLength stream + pesHdrLen * parts.packets.length + stream.data.length ∧
      parts.bytes.length < 2 ^ 31 := by
  obtain ⟨h, units, hpack, -, hunits, hpayloads, -, hwritten⟩ :=
    packagingPs_units fresh stream (by omega)
  obtain ⟨packets, hpayload, hbytes, hheaders⟩ :=
    exists_packets fun u hu => (hunits u hu).2
  have hchunks : ChunkList stream.data stream.data.length (packets.map PesPacket.payload) := by
    rw [hpayload, hpayloads]
    exact emittedChunks_list (by omega)
  have hcount : packets.length = packetCount stream.data.length := by
    rw [← hchunks.count, List.length_map]
  let parts : PackParts := ⟨h.encode, encodeUnits (frontUnits stream), packets⟩
  have hpartsBytes : parts.bytes = h.encode ++ encodeUnits (frontUnits stream ++ units) := by
    rw [encodeUnits, List.flatMap_append, ← List.append_assoc, ← encodeUnits, ← encodeUnits, ← hbytes]
    rfl
  have hfront : psHdrLen + (encodeUnits (frontUnits stream)).length = frontLength stream := by
    rw [frontUnits, frontLength]
    split <;> rfl
  have hlength : parts.bytes.length =
      frontLength stream + pesHdrLen * packets.length + stream.data.length := by
    rw [PackParts.bytes, List.length_append, List.length_append,
      packets_length fun packet hpacket => (hheaders packet hpacket).length, hchunks.total,
      hpack.length, hfront, Nat.add_assoc]
  refine ⟨parts, ⟨hpack, frontUnits_system, hcount, hheaders, ?_, ?_⟩, ?_, hlength, ?_⟩
  · intro packet hpacket
    apply hchunks.full
    rw [← List.map_dropLast]
    exact List.mem_map_of_mem hpacket
  · exact fun packet hpacket => hchunks.inFrame _ (List.mem_map_of_mem hpacket)
  · rw [hwritten, hpartsBytes]
  · have hbound : frontLength stream ≤ 56 := by
      rw [frontLength]
      split <;> decide
    rw [hlength, hcount]
    simp only [packetCount, pesPayloadMax, pesHdrLen] at *
    omega

private def threeBytes : H264Stream := ⟨1, 3600, 3600, 3, [0, 0, 1], rfl⟩

/-- An I-frame of three bytes. -/
theorem threeBytes_structure : threeBytes.data.length < 2 ^ 30 ∧
    ∃ parts : PackParts, parts.Carries threeBytes ∧ parts.bytes.length = 78 := by
  have hsize : threeBytes.data.length < 2 ^ 30 := by decide
  obtain ⟨parts, hparts, -, hlength, -⟩ := packagingPs_structure (fun _ => 0) hsize
  refine ⟨hsize, parts, hparts, ?_⟩
  rw [hlength, hparts.count]
  rfl

end GMProxy.TdPs
