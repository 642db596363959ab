import GMProxy.Ps.TimeStamps
import GMProxy.Ps.Grammar

/-!
# The headers the multiplexer writes

Each header writer puts the encoding of a pack header or of a unit in front of the bytes behind it.
-/

namespace GMProxy.TdPs

open CMemory BitString

variable {fields : List (Nat × UInt64)} {header pData : List UInt8} {hdrLen : Nat}

/-- A writer whose fields are the bits of `header` writes `header`. -/
theorem writeHeader_eq (hbits : toBits header = fieldBits fields) (hheader : header.length = hdrLen)
    (hcount : ∀ field ∈ fields, field.1 ≤ 64) (hfit : hdrLen ≤ pData.length) :
    writeHeader pData hdrLen fields = header ++ pData.drop hdrLen := by
  have hlen : (List.replicate hdrLen (0 : UInt8) ++ pData.drop hdrLen).length = pData.length := by
    rw [List.length_append, List.length_replicate, List.length_drop]
    omega
  have hfields : (fieldBits fields).length = 8 * hdrLen := by
    rw [← hbits, toBits_length, hheader]
  have hcursor : BitsBuffer.AtBit ⟨List.replicate hdrLen 0 ++ pData.drop hdrLen, 0x80, hdrLen, 0⟩ 0 :=
    ⟨rfl, rfl⟩
  have hwritten := bitsWriteAll_bits fields hcursor hcount (by rw [hlen, hfields]; omega)
  have hrest : (toBits (List.replicate hdrLen (0 : UInt8) ++ pData.drop hdrLen)).drop (8 * hdrLen) =
      toBits (pData.drop hdrLen) := by
    rw [toBits_append]
    apply List.drop_left'
    rw [toBits_length, List.length_replicate]
  apply toBits_injective
  rw [writeHeader, hwritten, hfields, Nat.zero_add, hrest, List.take_zero, List.nil_append,
    toBits_append, hbits]

theorem fieldBits_append (xs ys : List (Nat × UInt64)) :
    fieldBits (xs ++ ys) = fieldBits xs ++ fieldBits ys :=
  List.flatMap_append

private theorem packHeader_of_bits {middle : List Bool} (hlen : middle.length = 72) :
    ∃ h : PackHeader, h.encode.length = psHdrLen ∧
      toBits h.encode = bitsOf 32 0x1BA ++ middle ++ bitsOf 8 0xF8 := by
  obtain ⟨bytes, hbytes, hbits⟩ := exists_toBits 9 middle hlen
  have hfixed : (startCode 0xBA ++ (bytes ++ [0xF8])).length = sizeofProgramStreamPackHeader := by
    rw [List.length_append, List.length_append, hbytes]
    rfl
  have hlast : (startCode 0xBA ++ (bytes ++ [0xF8])).getD 13 0 = 0xF8 := by
    rw [List.getD_eq_getElem?_getD, List.getElem?_append_right (by decide),
      List.getElem?_append_right (by rw [hbytes]; decide), hbytes]
    rfl
  refine ⟨⟨startCode 0xBA ++ (bytes ++ [0xF8]), [], hfixed, rfl, ?_⟩, ?_, ?_⟩
  · rw [hlast]
    rfl
  · rw [PackHeader.encode, List.append_nil]
    exact hfixed
  · rw [PackHeader.encode, List.append_nil, toBits_append, toBits_append, hbits, ← List.append_assoc]
    rfl

theorem makePsHeader_eq (s64Scr : UInt64) :
    ∃ h : PackHeader, h.encode.length = psHdrLen ∧ HasClock h.encode 34 s64Scr ∧
      ∀ pData : List UInt8, psHdrLen ≤ pData.length →
        makePsHeader pData s64Scr = h.encode ++ pData.drop psHdrLen := by
  let rates : List (Nat × UInt64) :=
    [(9, s64Scr % 100 &&& 0x01ff), (1, 1), (22, 255 &&& 0x3fffff), (2, 3)]
  let clock : List (Nat × UInt64) := (2, 1) :: clockFields s64Scr ++ rates
  have hlen : (fieldBits clock).length = 72 := by
    simp [clock, rates, clockFields, fieldBits]
  obtain ⟨h, hencode, hbits⟩ := packHeader_of_bits hlen
  refine ⟨h, hencode, ?_, fun pData hfit => ?_⟩
  · have hclock : fieldBits clock = bitsOf 2 1 ++ fieldBits (clockFields s64Scr) ++ fieldBits rates := by
      rw [fieldBits_append]
      rfl
    refine ⟨bitsOf 32 0x1BA ++ bitsOf 2 1, fieldBits rates ++ bitsOf 8 0xF8, ?_, by simp⟩
    rw [hbits, hclock]
    simp only [List.append_assoc]
  · have hlast : bitsOf 8 0xF8 = fieldBits [(5, 0x1f), (3, 0)] := by decide
    refine writeHeader_eq ?_ hencode ?_ hfit
    · rw [hbits, hlast]
      simp only [clock, rates, clockFields, fieldBits, List.cons_append, List.nil_append,
        List.flatMap_cons, List.flatMap_nil, List.append_nil, List.append_assoc]
      rfl
    · simp

def sysBody : List UInt8 :=
  [0x81, 0x86, 0xA1, 0x05, 0xE1, 0x7F, 0xC0, 0xC2, 0x00, 0xE0, 0xE8, 0x00]

def psmBody : List UInt8 :=
  [0xE0, 0xFF, 0x00, 0x00, 0x00, 0x08, 0x90, 0xC0, 0x00, 0x00, 0x1B, 0xE0, 0x00, 0x00,
    0x45, 0xBD, 0xDC, 0xF4]

def sysHeaderUnit : PsUnit := .systemHeader sysBody (by decide)

def psmHeaderUnit : PsUnit := .streamMap psmBody (by decide)

theorem makeSysHeader_eq {pData : List UInt8} (hfit : sysHdrLen ≤ pData.length) :
    makeSysHeader pData = sysHeaderUnit.encode ++ pData.drop sysHdrLen :=
  writeHeader_eq (by decide) rfl (by decide) hfit

theorem makePsmHeader_eq {pData : List UInt8} (hfit : psmHdrLen ≤ pData.length) :
    makePsmHeader pData = psmHeaderUnit.encode ++ pData.drop psmHdrLen :=
  writeHeader_eq (by rfl) rfl (by decide) hfit

private theorem toBits_be16 (n : Nat) : toBits (be16 n) = bitsOf 16 n := by
  have hsplit : bitsOf 16 n = bitsOf 8 (n / 256) ++ bitsOf 8 n := bitsOf_add 8 8 n
  rw [be16, toBits_cons, toBits_cons, byteBits_ofNat, byteBits_ofNat, toBits_nil, List.append_nil,
    hsplit]

private theorem makePesHeader_eq (pts dts : UInt64) :
    ∃ stamps : List UInt8, stamps.length = 10 ∧ toBits stamps = fieldBits (ptsDtsFields pts dts) ∧
      ∀ (pData : List UInt8) (payloadLen : Nat),
        payloadLen ≤ pesPayloadMax → pesHdrLen ≤ pData.length →
          makePesHeader pData 0xE0 payloadLen pts dts =
            startCode 0xE0 ++ be16 (payloadLen + 13) ++ [0x80, 0xC0, 0x0A] ++ stamps ++
              pData.drop pesHdrLen := by
  have hlen : (fieldBits (ptsDtsFields pts dts)).length = 8 * 10 := by
    simp [ptsDtsFields, fieldBits]
  obtain ⟨stamps, hstamps, hbits⟩ := exists_toBits 10 _ hlen
  refine ⟨stamps, hstamps, hbits, fun pData payloadLen hmax hfit => ?_⟩
  have hlength : (UInt64.ofInt ((payloadLen : Int) + 13)).toNat = payloadLen + 13 := by
    simp only [pesPayloadMax] at hmax
    rw [show (payloadLen : Int) + 13 = ((payloadLen + 13 : Nat) : Int) from rfl, UInt64.ofInt,
      UInt64.toNat_ofNat']
    omega
  refine writeHeader_eq ?_ ?_ ?_ hfit
  · rw [fieldBits_append, ← hbits, toBits_append, toBits_append, toBits_append, toBits_be16]
    congr 1
    simp only [fieldBits, List.flatMap_cons, List.flatMap_nil, hlength]
    rfl
  · simp only [List.length_append, hstamps]
    rfl
  · simp [ptsDtsFields]

private theorem hasClock_of_stamps {pts dts : UInt64} {front stamps : List UInt8}
    (hfront : front.length = 9) (hstamps : toBits stamps = fieldBits (ptsDtsFields pts dts))
    (chunk : List UInt8) :
    HasClock (front ++ stamps ++ chunk) 76 pts ∧ HasClock (front ++ stamps ++ chunk) 116 dts := by
  have hbits : toBits (front ++ stamps ++ chunk) = toBits front ++ bitsOf 4 3 ++
      fieldBits (clockFields pts) ++ (bitsOf 4 1 ++ fieldBits (clockFields dts) ++ toBits chunk) := by
    have hfields : ptsDtsFields pts dts =
        [(4, 3)] ++ clockFields pts ++ [(4, 1)] ++ clockFields dts := rfl
    rw [toBits_append, toBits_append, hstamps, hfields, fieldBits_append, fieldBits_append,
      fieldBits_append]
    simp only [List.append_assoc]
    rfl
  have hlen : (fieldBits (clockFields pts)).length = 36 := by
    simp [clockFields, fieldBits]
  constructor
  · refine ⟨_, _, hbits, ?_⟩
    rw [List.length_append, toBits_length, hfront, bitsOf_length]
  · refine ⟨toBits front ++ bitsOf 4 3 ++ fieldBits (clockFields pts) ++ bitsOf 4 1, toBits chunk,
      ?_, ?_⟩
    · rw [hbits]
      simp only [List.append_assoc]
    · simp only [List.length_append, toBits_length, hfront, bitsOf_length, hlen]

/-- The PES header for a chunk makes the chunk a video packet with the time stamps. -/
theorem exists_pesUnit (pts dts : UInt64) {chunk : List UInt8}
    (hmax : chunk.length ≤ pesPayloadMax) :
    ∃ (u : PsUnit) (header : List UInt8), u.payload = chunk ∧ header.length = pesHdrLen ∧
      u.encode = header ++ chunk ∧ (HasClock u.encode 76 pts ∧ HasClock u.encode 116 dts) ∧
      ∀ pData : List UInt8, pesHdrLen ≤ pData.length →
        makePesHeader pData 0xE0 chunk.length pts dts = header ++ pData.drop pesHdrLen := by
  obtain ⟨stamps, hstamps, hbits, hheader⟩ := makePesHeader_eq pts dts
  have hbody : 3 + stamps.length + chunk.length < 2 ^ 16 := by
    simp only [pesPayloadMax] at hmax
    omega
  let u : PsUnit := .video 0x80 0xC0 stamps chunk (by rw [hstamps]; decide) hbody
  have hlength : u.body.length = chunk.length + 13 := by
    simp only [u, PsUnit.body, List.length_append, hstamps, List.length_cons, List.length_nil]
    omega
  have hencode : u.encode = startCode 0xE0 ++ be16 (chunk.length + 13) ++ [0x80, 0xC0, 0x0A] ++
      stamps ++ chunk := by
    rw [PsUnit.encode, hlength]
    simp only [u, PsUnit.body, PsUnit.id, hstamps, List.append_assoc]
    rfl
  refine ⟨u, _, rfl, ?_, hencode, ?_, fun pData hfit => hheader pData chunk.length hmax hfit⟩
  · simp only [List.length_append, hstamps]
    rfl
  · rw [hencode]
    exact hasClock_of_stamps rfl hbits chunk

end GMProxy.TdPs
