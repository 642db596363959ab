import GMProxy.Ps.DemuxOutcome

/-!
# Memory safety and results of the demultiplexer

On which buffers `parsingPs` reads only its own bytes, and what it gives back for well-formed packs
and for packs that end in a cut-off video packet.
-/

namespace GMProxy.TdPs

open WhileLoop CMemory

variable {tail : List UInt8} {units : List PsUnit}

/-- `parsingPs` never inspects or copies a byte outside `srcdata`. -/
def ReadsInBounds (srcdata : List UInt8) : Prop :=
  ∀ fuel, parsingPs srcdata srcdata.length fuel ≠ .leave .outOfBounds

theorem readsInBounds_iff {srcdata : List UInt8} :
    ReadsInBounds srcdata ↔ ¬ Ends srcdata .outOfBounds :=
  not_exists.symm

/-- A tail from which a byte outside the buffer is read, behind the frame `acc`. -/
def Overruns (acc tail : List UInt8) : Prop :=
  CutInSkipped tail ∨ HeaderExceedsPacket tail ∨ CopiesPastEnd acc tail

private theorem readsInBounds_pack {srcdata : List UInt8} (hfits : srcdata.length < 2 ^ 31)
    (hid : srcdata[3]? = some 0xBA) (hlen : 14 ≤ srcdata.length) :
    ReadsInBounds srcdata ↔ ∀ units tail, unitArea srcdata = encodeUnits units ++ tail →
      ¬ Overruns (keepAll [] units) tail := by
  rw [readsInBounds_iff]
  constructor
  · rintro hsafe units tail harea (hcut | hexceeds | hcopy)
    · exact hsafe (ends_of_cutInSkipped hfits hid hlen harea hcut)
    · exact hsafe (ends_of_headerExceedsPacket hfits hid hlen harea hexceeds)
    · exact hsafe (ends_of_copiesPastEnd hfits hid hlen harea hcopy)
  · intro hcond hbad
    obtain ⟨units, tail, harea, hmax⟩ := exists_units (unitArea srcdata)
    have htail := hcond units tail harea
    simp only [Overruns, not_or] at htail
    obtain ⟨hskipped, hheader, hcopy⟩ := htail
    have hreturned : ∀ r, ¬ Ends srcdata (.returned r) := fun r hr => by
      cases hr.unique hbad
    rcases tail_cases hmax with h | h | h | h | h
    · exact hreturned _ (ends_of_endsPack hfits hid hlen harea h)
    · exact not_ends_of_cutInHeader hfits hid hlen harea h hbad
    · exact hskipped h
    · exact hheader h
    · exact hreturned _ (ends_of_cutInVideo hfits hid hlen harea h hheader hcopy)

theorem readsInBounds_buffer (b : Buffer) :
    ReadsInBounds b.bytes ↔
      4 ≤ b.bytes.length ∧ (b.bytes[3]? = some 0xBA → 14 ≤ b.bytes.length ∧
        ∀ units tail, unitArea b.bytes = encodeUnits units ++ tail →
          ¬ Overruns (keepAll [] units) tail) := by
  rcases header_cases b.bytes with hshort | ⟨_, hread, hother⟩ | ⟨hid, hlen⟩ | ⟨hid, hlen⟩
  · rw [readsInBounds_iff]
    exact iff_of_false (fun hsafe => hsafe (ends_short hshort)) (by omega)
  · rw [readsInBounds_iff]
    refine iff_of_true (fun hbad => by cases (ends_otherId hread hother).unique hbad) ⟨?_, ?_⟩
    · obtain ⟨hlt, _⟩ := List.getElem?_eq_some_iff.mp hread
      omega
    · intro hid
      rw [hread] at hid
      exact absurd (Option.some.inj hid) hother
  · rw [readsInBounds_iff]
    refine iff_of_false (fun hsafe => hsafe (ends_shortHeader hid hlen)) ?_
    rintro ⟨-, hpack⟩
    have hlen' := (hpack hid).1
    omega
  · rw [readsInBounds_pack b.fits hid hlen]
    constructor
    · intro h
      exact ⟨by omega, fun _ => ⟨hlen, h⟩⟩
    · rintro ⟨-, h⟩
      exact (h hid).2

/-- `parsingPs` stays inside its buffer exactly when the buffer has the four bytes of a start code
and, if it is a pack, all of the pack header, and no chain of complete units is followed by a
system header or stream map that declares more bytes than there are, by a video packet whose header
is longer than itself, or by a cut-off video packet whose payload passes the size limit. -/
theorem parsingPs_readsInBounds_iff (b : Buffer) :
    ReadsInBounds b.bytes ↔
      4 ≤ b.bytes.length ∧ (b.bytes[3]? = some 0xBA → 14 ≤ b.bytes.length ∧
        ∀ units tail, unitArea b.bytes = encodeUnits units ++ tail →
          ¬ Overruns (keepAll [] units) tail) :=
  readsInBounds_buffer b

/-- A pack header and a video packet that declares 100 bytes and has six. -/
def truncatedVideo : List UInt8 :=
  [0x00, 0x00, 0x01, 0xBA, 0x44, 0x00, 0x04, 0x00, 0x04, 0x01, 0x00, 0x03, 0xFF, 0xF8] ++
    [0x00, 0x00, 0x01, 0xE0, 0x00, 0x64, 0x80, 0xC0, 0x00, 0x01, 0x02, 0x03]

private theorem truncatedVideo_ends : Ends truncatedVideo .outOfBounds :=
  ⟨1, by decide⟩

/-- The payload of the truncated packet is copied from behind the buffer. -/
theorem truncatedVideo_overread : ¬ ReadsInBounds truncatedVideo :=
  fun hsafe => readsInBounds_iff.mp hsafe truncatedVideo_ends

section WellFormed

variable {b : Buffer} {h : PackHeader}

theorem PackHeader.streamId_append (h : PackHeader) (rest : List UInt8) :
    (h.encode ++ rest)[3]? = some 0xBA := by
  have hlen := h.fixed_length
  simp only [sizeofProgramStreamPackHeader] at hlen
  rw [PackHeader.encode, List.append_assoc, List.getElem?_append_left (by omega), h.streamId]

theorem PackHeader.unitArea_append (h : PackHeader) (rest : List UInt8) :
    unitArea (h.encode ++ rest) = rest := by
  have hlen := h.fixed_length
  simp only [sizeofProgramStreamPackHeader] at hlen
  have hstuffing : packStuffing (h.encode ++ rest) = h.stuffing.length := by
    rw [packStuffing, ← h.stuffing_length, PackHeader.encode, List.append_assoc,
      List.getD_eq_getElem?_getD, List.getElem?_append_left (by omega),
      ← List.getD_eq_getElem?_getD]
  rw [unitArea, hstuffing, sizeofProgramStreamPackHeader]
  exact List.drop_left' (by rw [PackHeader.encode, List.length_append, hlen])

theorem PackHeader.length_append (h : PackHeader) (rest : List UInt8) :
    14 ≤ (h.encode ++ rest).length := by
  have hlen := h.fixed_length
  simp only [sizeofProgramStreamPackHeader] at hlen
  simp only [PackHeader.encode, List.length_append]
  omega

/-- On a well-formed pack the frame is what the size limit keeps of the payloads. -/
theorem ends_of_wellFormed (hb : b.bytes = h.encode ++ (encodeUnits units ++ tail))
    (htail : EndsPack tail) :
    Ends b.bytes (.returned (resultOf (keepAll [] units))) := by
  refine ends_of_endsPack b.fits ?_ ?_ ?_ htail
  · rw [hb, h.streamId_append]
  · rw [hb]
    exact h.length_append _
  · rw [hb, h.unitArea_append]

theorem endsPack_of_tail
    (htail : tail.length < 4 ∨
      tail.take 4 ∉ [startCode 0xBB, startCode 0xBC, startCode 0xE0]) : EndsPack tail := by
  have hno : ∀ id ∈ [0xBB, 0xBC, 0xE0], ¬ HasStartCode id tail := by
    intro id hid hcode
    rcases htail with hshort | hother
    · have hfour := hcode.four_le
      omega
    · rw [show tail.take 4 = startCode id from hcode] at hother
      exact hother (List.mem_map_of_mem (f := startCode) hid)
  exact ⟨hno 0xE0 (by simp), fun hskip => hskip.elim (hno 0xBB (by simp)) (hno 0xBC (by simp))⟩

/-- `parsingPs` on a well-formed pack: it returns the total payload length, and its output is the
concatenation of the video payloads in order. -/
theorem parsingPs_wellFormed (b : Buffer) (h : PackHeader) (units : List PsUnit)
    (tail : List UInt8) (hb : b.bytes = h.encode ++ (encodeUnits units ++ tail))
    (htail : tail.length < 4 ∨ tail.take 4 ∉ [startCode 0xBB, startCode 0xBC, startCode 0xE0])
    (hsize : (payloads units).length < h264FrameSizeMax) :
    ∃ fuel, parsingPs b.bytes b.bytes.length fuel = .leave (.returned
      ⟨UInt32.ofNat (payloads units).length,
        if payloads units = [] then none else some (payloads units),
        (payloads units).length⟩) := by
  have hend := ends_of_wellFormed hb (endsPack_of_tail htail)
  rw [keepAll_eq_append (by rw [List.length_nil, Nat.zero_add]; exact hsize),
    List.nil_append] at hend
  exact hend

private def sampleHeader : PackHeader where
  fixed := [0x00, 0x00, 0x01, 0xBA, 0x44, 0x00, 0x04, 0x00, 0x04, 0x01, 0x00, 0x03, 0xFF, 0xF9]
  stuffing := [0xFF]
  fixed_length := rfl
  streamId := rfl
  stuffing_length := rfl

private def sampleUnits : List PsUnit :=
  [.video 0x80 0x00 [] [0x11, 0x22] (by decide) (by decide), .streamMap [0x33] (by decide),
    .video 0x80 0x80 [0x44] [0x55] (by decide) (by decide)]

/-- A stuffed pack with a stream map between two video packets and an audio packet behind them. -/
theorem parsingPs_wellFormed_sample :
    ∃ fuel, parsingPs (sampleHeader.encode ++ (encodeUnits sampleUnits ++ startCode 0xC0))
      (sampleHeader.encode ++ (encodeUnits sampleUnits ++ startCode 0xC0)).length fuel =
        .leave (.returned ⟨3, some [0x11, 0x22, 0x55], 3⟩) :=
  parsingPs_wellFormed ⟨_, by decide⟩ sampleHeader sampleUnits (startCode 0xC0) rfl
    (Or.inr (by decide)) (by decide)

end WellFormed

/-- What is asked of a pack that ends in a cut-off video packet: the error path, with no frame. -/
def RejectsFrame (srcdata : List UInt8) : Prop :=
  ∃ fuel, parsingPs srcdata srcdata.length fuel = .leave (.error ⟨0, none, 0⟩)

/-- No run of `parsingPs` takes the error path. -/
theorem not_ends_error (b : Buffer) (r : PsResult) : ¬ Ends b.bytes (.error r) := by
  rcases header_cases b.bytes with hshort | ⟨_, hread, hother⟩ | ⟨hid, hlen⟩ | ⟨hid, hlen⟩
  · exact fun herror => by cases (ends_short hshort).unique herror
  · exact fun herror => by cases (ends_otherId hread hother).unique herror
  · exact fun herror => by cases (ends_shortHeader hid hlen).unique herror
  · rintro ⟨fuel, hfuel⟩
    rw [parsingPs] at hfuel
    rcases start_cases b.fits hid hlen with ⟨-, hentry⟩ | ⟨-, hentry⟩
    · rw [hentry] at hfuel
      cases hfuel
    · rw [hentry] at hfuel
      exact not_leaves_of_passes (fun s => pass_ne_error b.bytes s r) ⟨fuel, hfuel⟩

/-- The truncated packet of `truncatedVideo` is not rejected. -/
theorem truncatedVideo_not_rejected :
    unitArea truncatedVideo = truncatedVideo.drop 14 ∧ CutInVideo (truncatedVideo.drop 14) ∧
      ¬ RejectsFrame truncatedVideo :=
  ⟨by decide, by decide, not_ends_error ⟨truncatedVideo, by decide⟩ _⟩

/-- A pack that ends in a cut-off video packet never takes the error path. It gives back no frame
exactly when no video packet of it, the cut-off one included, declares a payload. -/
theorem parsingPs_truncatedVideo (b : Buffer) (h : PackHeader) (units : List PsUnit)
    (tail : List UInt8) (hb : b.bytes = h.encode ++ (encodeUnits units ++ tail))
    (htail : CutInVideo tail) :
    ¬ RejectsFrame b.bytes ∧
      ((∃ fuel, parsingPs b.bytes b.bytes.length fuel = .leave (.returned ⟨0, none, 0⟩)) ↔
        declaredLength tail = 3 + headerDataLength tail ∧ payloads units = []) := by
  have hid : b.bytes[3]? = some 0xBA := by rw [hb, h.streamId_append]
  have hlen : 14 ≤ b.bytes.length := by
    rw [hb]
    exact h.length_append _
  have harea : unitArea b.bytes = encodeUnits units ++ tail := by rw [hb, h.unitArea_append]
  refine ⟨not_ends_error _ _, ?_⟩
  change Ends b.bytes _ ↔ _
  by_cases hheader : HeaderExceedsPacket tail
  · have hbad := ends_of_headerExceedsPacket b.fits hid hlen harea hheader
    refine iff_of_false (fun hret => by cases hret.unique hbad) ?_
    rintro ⟨hdeclared, -⟩
    have hlow := hheader.2.2
    omega
  · by_cases hcopy : CopiesPastEnd (keepAll [] units) tail
    · have hbad := ends_of_copiesPastEnd b.fits hid hlen harea hcopy
      refine iff_of_false (fun hret => by cases hret.unique hbad) ?_
      rintro ⟨hdeclared, -⟩
      have hhigh := hcopy.2.1
      omega
    · have hret := ends_of_cutInVideo b.fits hid hlen harea htail hheader hcopy
      have hempty : Ends b.bytes (.returned ⟨0, none, 0⟩) ↔ payloads units = [] := by
        rw [← keepAll_eq_nil_iff, ← resultOf_eq_empty_iff]
        constructor
        · intro h0
          exact PsEnd.returned.inj (hret.unique h0)
        · intro h0
          rw [h0] at hret
          exact hret
      rw [hempty]
      constructor
      · intro hnone
        refine ⟨?_, hnone⟩
        have hkept := keepAll_eq_nil_iff.mpr hnone
        have hlow : ¬ declaredLength tail < 3 + headerDataLength tail := fun hlow =>
          hheader ⟨htail.1, htail.2.1, hlow⟩
        have hhigh : ¬ 3 + headerDataLength tail < declaredLength tail := fun hhigh =>
          hcopy ⟨htail, hhigh, by
            have hdeclared := declaredLength_lt tail
            rw [hkept, List.length_nil, h264FrameSizeMax]
            omega⟩
        omega
      · exact And.right

/-- A cut-off packet that declares a header of ten bytes and no payload. -/
private def truncatedHeader : List UInt8 := startCode 0xE0 ++ [0x00, 0x0D, 0x80, 0xC0, 0x0A]

/-- Behind complete units without payload the truncated header leaves no frame. -/
theorem parsingPs_truncatedHeader :
    ∃ fuel, parsingPs (sampleHeader.encode ++ (encodeUnits [] ++ truncatedHeader))
      (sampleHeader.encode ++ (encodeUnits [] ++ truncatedHeader)).length fuel =
        .leave (.returned ⟨0, none, 0⟩) :=
  (parsingPs_truncatedVideo ⟨_, by decide⟩ sampleHeader [] truncatedHeader rfl
    (by decide)).2.mpr ⟨by decide, rfl⟩

end GMProxy.TdPs
