import GMProxy.Ps.MuxUnits
import Mathlib.Algebra.Ring.Nat

/-!
# The fields of the headers

The pack header and the PES header of the multiplexer, read back field by field.
-/

namespace GMProxy.TdPs

open BitString

variable {fields front rest : List (Nat × UInt64)} {header : List UInt8}

/-- The bits in front of what follows the fields. -/
def fieldsWidth (fields : List (Nat × UInt64)) : Nat := (fields.map Prod.fst).sum

theorem fieldBits_length (fields : List (Nat × UInt64)) :
    (fieldBits fields).length = fieldsWidth fields := by
  induction fields with
  | nil => rfl
  | cons field fields ih =>
      rw [fieldBits, List.flatMap_cons, List.length_append, bitsOf_length, ← fieldBits, ih,
        fieldsWidth, fieldsWidth, List.map_cons, List.sum_cons]

/-- Field number `i` is read back from behind the fields in front of it. -/
theorem bitField_field {before behind : List Bool}
    (hbits : toBits header = before ++ fieldBits fields ++ behind) {i count first : Nat}
    {value : UInt64} (hfield : fields[i]? = some (count, value))
    (hfirst : before.length + fieldsWidth (fields.take i) = first) :
    bitField header first count = value.toNat % 2 ^ count := by
  obtain ⟨hi, hget⟩ := List.getElem?_eq_some_iff.mp hfield
  have hsplit : fields = fields.take i ++ (count, value) :: fields.drop (i + 1) := by
    rw [← hget, List.getElem_cons_drop, List.take_append_drop]
  have hfront : toBits header = (before ++ fieldBits (fields.take i)) ++
      (bitsOf count value.toNat ++ (fieldBits (fields.drop (i + 1)) ++ behind)) := by
    rw [hbits]
    conv_lhs => rw [hsplit]
    rw [fieldBits_append, fieldBits, fieldBits, List.flatMap_cons]
    simp only [fieldBits, List.append_assoc]
  apply bitField_of_bits _ _ hfront
  rw [List.length_append, fieldBits_length, hfirst]

/-- The marker bits behind the three groups of a stamp. -/
theorem HasClock.markers {first : Nat} {v : UInt64} (h : HasClock header first v) :
    bitField header (first + 3) 1 = 1 ∧ bitField header (first + 19) 1 = 1 ∧
      bitField header (first + 35) 1 = 1 := by
  obtain ⟨before, behind, hbits, rfl⟩ := h
  exact ⟨bitField_field hbits (i := 1) rfl rfl, bitField_field hbits (i := 3) rfl rfl,
    bitField_field hbits (i := 5) rfl rfl⟩

theorem hasClock_of_fields (hbits : toBits header = [] ++ fieldBits fields ++ []) {v : UInt64}
    {first : Nat} (hfields : fields = front ++ clockFields v ++ rest)
    (hfirst : fieldsWidth front = first) : HasClock header first v := by
  refine ⟨fieldBits front, fieldBits rest, ?_, (fieldBits_length front).trans hfirst⟩
  rw [hbits, hfields, fieldBits_append, fieldBits_append, List.nil_append, List.append_nil]

/-- `write` puts `header` over the first bytes of every block that has room for it, and leaves the
bytes behind them. -/
def Writes (write : List UInt8 → List UInt8) (header : List UInt8) : Prop :=
  ∀ pData : List UInt8, header.length ≤ pData.length →
    write pData = header ++ pData.drop header.length

/-- There is one header that a writer writes. -/
theorem Writes.unique {write : List UInt8 → List UInt8} {other : List UInt8}
    (h : Writes write header) (hother : Writes write other) (hlen : header.length = other.length) :
    header = other := by
  have hfirst := h (List.replicate header.length 0) (by simp)
  have hsecond := hother (List.replicate header.length 0) (by simp [hlen])
  rw [List.drop_eq_nil_of_le (by simp), List.append_nil] at hfirst
  rw [List.drop_eq_nil_of_le (by simp [hlen]), List.append_nil] at hsecond
  rw [← hfirst, hsecond]

theorem exists_header (fields : List (Nat × UInt64)) (hdrLen : Nat)
    (hwidth : fieldsWidth fields = 8 * hdrLen) (hcount : ∀ field ∈ fields, field.1 ≤ 64) :
    ∃ header : List UInt8, header.length = hdrLen ∧
      toBits header = [] ++ fieldBits fields ++ [] ∧ Writes (writeHeader · hdrLen fields) header := by
  obtain ⟨header, hlen, hbits⟩ := exists_toBits hdrLen (fieldBits fields)
    (by rw [fieldBits_length, hwidth])
  refine ⟨header, hlen, by rw [hbits, List.nil_append, List.append_nil], fun pData hfit => ?_⟩
  rw [hlen] at hfit ⊢
  exact writeHeader_eq hbits hlen hcount hfit

/-- `system_clock_reference_extension` of a pack. -/
def scrExtension (pack : List UInt8) : Nat := bitField pack 70 9

def streamIdOf (unit : List UInt8) : Nat := bitField unit 24 8

/-- `PES_packet_length`. -/
def pesPacketLength (unit : List UInt8) : Nat := bitField unit 32 16

def pesHeaderDataLength (unit : List UInt8) : Nat := bitField unit 64 8

/-- Where the marker bits of a pack header stand. -/
def packMarkers : List Nat := [37, 53, 69, 79, 102, 103]

/-- Where the marker bits of the two time stamps of a PES header stand. -/
def pesMarkers : List Nat := [79, 95, 111, 119, 135, 151]

def MarkersSet (header : List UInt8) (markers : List Nat) : Prop :=
  ∀ k ∈ markers, bitField header k 1 = 1

/-- A pack header with the clock `scr`. -/
structure IsPackHeader (header : List UInt8) (scr : UInt64) : Prop where
  length : header.length = psHdrLen
  startCode : bitField header 0 32 = 0x1BA
  fixedBits : bitField header 32 2 = 1
  base : scrBase header = scr.toNat % 2 ^ 33
  extension : scrExtension header = scr.toNat % 100
  markers : MarkersSet header packMarkers

/-- The header of a PES packet with `payloadLen` bytes of payload. -/
structure IsPesHeader (header : List UInt8) (streamId : UInt8) (payloadLen : Nat)
    (pts dts : UInt64) : Prop where
  length : header.length = pesHdrLen
  startCode : bitField header 0 24 = 1
  streamId : streamIdOf header = streamId.toNat
  packetLength : pesPacketLength header = payloadLen + 13
  fixedBits : bitField header 48 2 = 2
  ptsFlag : bitField header 56 1 = 1
  dtsFlag : bitField header 57 1 = 1
  headerDataLength : pesHeaderDataLength header = 10
  ptsBits : bitField header 72 4 = 3
  pts : ptsOf header = pts.toNat % 2 ^ 33
  dtsBits : bitField header 112 4 = 1
  dts : dtsOf header = dts.toNat % 2 ^ 33
  markers : MarkersSet header pesMarkers

theorem extension_value (scr : UInt64) : (scr % 100 &&& 0x01ff).toNat % 2 ^ 9 = scr.toNat % 100 := by
  have hmask : (scr % 100 &&& 0x01ff).toNat = scr.toNat % 100 % 2 ^ 9 := by
    rw [UInt64.toNat_and, UInt64.toNat_mod]
    exact Nat.and_two_pow_sub_one_eq_mod _ 9
  rw [hmask]
  omega

theorem makePsHeader_isPackHeader (s64Scr : UInt64) :
    ∃ header, IsPackHeader header s64Scr ∧ Writes (makePsHeader · s64Scr) header := by
  let front : List (Nat × UInt64) := [(32, 0x000001BA), (2, 1)]
  let rates : List (Nat × UInt64) := [(9, s64Scr % 100 &&& 0x01ff), (1, 1), (22, 255 &&& 0x3fffff)]
  let fields := front ++ clockFields s64Scr ++ (rates ++ [(2, 3), (5, 0x1f), (3, 0)])
  -- the two marker bits behind the rate are written as one field
  let single := front ++ clockFields s64Scr ++ (rates ++ [(1, 1), (1, 1), (5, 0x1f), (3, 0)])
  obtain ⟨header, hlen, hwritten, hwrites⟩ := exists_header fields psHdrLen
    (by simp [fieldsWidth, fields, front, rates, clockFields, psHdrLen])
    (by simp [fields, front, rates, clockFields])
  have hbits : toBits header = [] ++ fieldBits single ++ [] := by
    rw [hwritten, fieldBits_append, fieldBits_append]
    rfl
  have hclock : HasClock header 34 s64Scr := hasClock_of_fields hbits rfl rfl
  have hext : bitField header 70 9 = (s64Scr % 100 &&& 0x01ff).toNat % 2 ^ 9 :=
    bitField_field hbits (i := 8) rfl (by simp [fieldsWidth, single, front, clockFields])
  have hbehindExt : bitField header 79 1 = 1 :=
    bitField_field hbits (i := 9) rfl (by simp [fieldsWidth, single, front, rates, clockFields])
  have hbehindRate : bitField header 102 1 = 1 ∧ bitField header 103 1 = 1 :=
    ⟨bitField_field hbits (i := 11) rfl (by simp [fieldsWidth, single, front, rates, clockFields]),
      bitField_field hbits (i := 12) rfl (by simp [fieldsWidth, single, front, rates, clockFields])⟩
  refine ⟨header, ⟨hlen, ?_, ?_, hclock.timeStampAt_eq, ?_, ?_⟩, hwrites⟩
  · exact bitField_field hbits (i := 0) rfl rfl
  · exact bitField_field hbits (i := 1) rfl rfl
  · exact hext.trans (extension_value s64Scr)
  · obtain ⟨hfirst, hsecond, hthird⟩ := hclock.markers
    simp only [MarkersSet, packMarkers, List.forall_mem_cons]
    exact ⟨hfirst, hsecond, hthird, hbehindExt, hbehindRate.1, hbehindRate.2,
      List.forall_mem_nil _⟩

theorem makePesHeader_isPesHeader (streamId : UInt8) {payloadLen : Nat} (hlen : payloadLen ≤ 65522)
    (pts dts : UInt64) :
    ∃ header, IsPesHeader header streamId payloadLen pts dts ∧
      Writes (makePesHeader · streamId.toNat payloadLen pts dts) header := by
  let front : List (Nat × UInt64) := [(24, 0x000001), (8, UInt64.ofInt streamId.toNat),
    (16, UInt64.ofInt (payloadLen + 13)), (2, 2), (2, 0), (1, 0), (1, 0), (1, 0), (1, 0),
    (1, 1), (1, 1), (1, 0), (1, 0), (1, 0), (1, 0), (1, 0), (1, 0), (8, 10), (4, 3)]
  let fields := front ++ clockFields pts ++ (4, 1) :: clockFields dts
  have hid : (UInt64.ofInt streamId.toNat).toNat % 2 ^ 8 = streamId.toNat := by
    have hlt := streamId.toNat_lt
    rw [UInt64.ofInt, UInt64.toNat_ofNat']
    omega
  have hlength : (UInt64.ofInt (payloadLen + 13)).toNat % 2 ^ 16 = payloadLen + 13 := by
    rw [UInt64.ofInt, UInt64.toNat_ofNat']
    omega
  obtain ⟨header, hheader, hbits, hwrites⟩ := exists_header fields pesHdrLen
    (by simp [fieldsWidth, fields, front, clockFields, pesHdrLen])
    (by simp [fields, front, clockFields])
  have hsecond : fields = front ++ clockFields pts ++ [(4, 1)] ++ clockFields dts ++ [] := by
    simp [fields]
  have hpts : HasClock header 76 pts := hasClock_of_fields hbits rfl rfl
  have hdts : HasClock header 116 dts :=
    hasClock_of_fields hbits hsecond (by simp [fieldsWidth, front, clockFields])
  refine ⟨header, ⟨hheader, ?_, ?_, ?_, ?_, ?_, ?_, ?_, ?_, hpts.timeStampAt_eq, ?_,
    hdts.timeStampAt_eq, ?_⟩, hwrites⟩
  · exact bitField_field hbits (i := 0) rfl rfl
  · exact (bitField_field hbits (i := 1) rfl rfl).trans hid
  · exact (bitField_field hbits (i := 2) rfl rfl).trans hlength
  · exact bitField_field hbits (i := 3) rfl rfl
  · exact bitField_field hbits (i := 9) rfl (by simp [fieldsWidth, fields, front])
  · exact bitField_field hbits (i := 10) rfl (by simp [fieldsWidth, fields, front])
  · exact bitField_field hbits (i := 17) rfl (by simp [fieldsWidth, fields, front])
  · exact bitField_field hbits (i := 18) rfl (by simp [fieldsWidth, fields, front])
  · exact bitField_field hbits (i := 25) rfl (by simp [fieldsWidth, fields, front, clockFields])
  · obtain ⟨hfirst, hmiddle, hlast⟩ := hpts.markers
    obtain ⟨hfirst', hmiddle', hlast'⟩ := hdts.markers
    simp only [MarkersSet, pesMarkers, List.forall_mem_cons]
    exact ⟨hfirst, hmiddle, hlast, hfirst', hmiddle', hlast', List.forall_mem_nil _⟩

/-- The fields of both headers are read back, and nothing behind a header is written. -/
theorem headers_read_back (s64Scr pts dts : UInt64) (streamId : UInt8) {payloadLen : Nat}
    (hlen : payloadLen ≤ 65522) :
    (∃ header, IsPackHeader header s64Scr ∧ Writes (makePsHeader · s64Scr) header) ∧
      ∃ header, IsPesHeader header streamId payloadLen pts dts ∧
        Writes (makePesHeader · streamId.toNat payloadLen pts dts) header :=
  ⟨makePsHeader_isPackHeader s64Scr, makePesHeader_isPesHeader streamId hlen pts dts⟩

/-- The longest payload that the length field has room for. -/
theorem headers_longest :
    65522 ≤ 65522 ∧ ∃ header, IsPesHeader header 0xE0 65522 90000 86400 ∧
      Writes (makePesHeader · 0xE0 65522 90000 86400) header :=
  ⟨Nat.le_refl _, (headers_read_back 90000 90000 86400 0xE0 (Nat.le_refl 65522)).2⟩

end GMProxy.TdPs
