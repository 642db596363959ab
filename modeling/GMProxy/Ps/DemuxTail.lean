import GMProxy.Ps.DemuxRun

/-!
# How a run of the demultiplexer ends

What the loop of `parsingPs` does behind the last complete unit. A unit cut off in its fixed part
is looked at again for ever; a cut-off system header or stream map is looked at again until the
remaining length wraps around, and then the cursor is thrown past the buffer; the payload of a
cut-off video packet is copied before its length is tested.
-/

namespace GMProxy.TdPs

open WhileLoop CMemory

variable {srcdata tail acc : List UInt8} {s : DemuxState}

theorem HasStartCode.four_le {id : UInt8} (h : HasStartCode id tail) : 4 ≤ tail.length := by
  have hlen := congrArg List.length h
  simp only [startCode, List.length_take, List.length_cons, List.length_nil] at hlen
  omega

theorem IsSkipped.four_le (h : IsSkipped tail) : 4 ≤ tail.length :=
  h.elim HasStartCode.four_le HasStartCode.four_le

theorem pass_endsPack (h : At srcdata tail acc s) (htail : EndsPack tail) :
    parsingPsPass srcdata s = .leave (.returned (resultOf acc)) := by
  by_cases hlen : 4 ≤ tail.length
  · rw [pass_other (h.guard hlen) (h.cursor hlen) hlen htail.1 htail.2, h.result]
  · rw [parsingPsPass, parsingPsStep, if_neg (by rw [h.toUnsigned]; exact hlen)]
    exact congrArg (fun r => Pass.leave (PsEnd.returned r)) h.result

/-- The loop does not move in front of a unit cut off in its fixed part. -/
theorem pass_cutInHeader (h : At srcdata tail acc s) (htail : CutInHeader tail) :
    parsingPsPass srcdata s = .again s := by
  rcases htail with ⟨hcode, hlen⟩ | ⟨hcode, hlen⟩
  · have hfour := hcode.four_le
    rw [pass_video (h.guard hfour) (h.cursor hfour) hfour hcode,
      pes_short (by rw [h.toUnsigned]; exact hlen)]
    simp only [Option.bind_some]
    rw [appendPayload_zero rfl]
    rfl
  · have hfour := hcode.four_le
    rw [pass_skipped (h.guard hfour) (h.cursor hfour) hfour hcode,
      skipUnit_short (by rw [h.toUnsigned]; exact hlen)]
    rfl

/-- A cut-off unit that is skipped is looked at again, with a remaining length below zero. -/
theorem pass_cutInSkipped (h : At srcdata tail acc s) (htail : CutInSkipped tail) :
    parsingPsPass srcdata s =
      .again { s with leftlength := tail.length - declaredLength tail - 6 } := by
  obtain ⟨hcode, hsix, hcut⟩ := htail
  have hfour := hcode.four_le
  have hfits := h.fits
  have hdeclared := declaredLength_lt tail
  obtain ⟨ret, v, hskip, hvleft, hvnext⟩ :=
    skipUnit_drop (h.cursor hfour) hsix (by rw [h.toUnsigned]; exact hsix)
  rw [h.leftlength, toInt_of_mem (by omega) (by omega)] at hvleft
  rw [hvleft, if_pos (by omega)] at hvnext
  rw [pass_skipped (h.guard hfour) (h.cursor hfour) hfour hcode, hskip]
  simp only [Option.map_some, Option.getD_some, hvleft, hvnext]

theorem pass_beyond (hguard : 4 ≤ toUnsigned s.leftlength)
    (hcursor : srcdata.length ≤ s.nextPack) :
    parsingPsPass srcdata s = .leave .outOfBounds := by
  have hread : srcdata[s.nextPack]? = none := List.getElem?_eq_none hcursor
  rw [parsingPsPass, parsingPsStep, if_pos (by simpa [sizeofPackStartCode] using hguard)]
  simp [matchesAt, startCode, hread]

private theorem leaves_of_negative (n : Nat) {s : DemuxState}
    (hcursor : srcdata.drop s.nextPack = tail) (hcode : IsSkipped tail) (hsix : 6 ≤ tail.length)
    (hcut : tail.length < 6 + declaredLength tail)
    (hn : s.leftlength = -2 ^ 31 + (n : Int)) (hneg : s.leftlength < 0) :
    Leaves (parsingPsPass srcdata) s .outOfBounds := by
  induction n using Nat.strongRecOn generalizing s with
  | ind n ih =>
      have hdeclared := declaredLength_lt tail
      have hunsigned := toUnsigned_of_neg (z := s.leftlength) (by omega) hneg
      obtain ⟨ret, v, hskip, hvleft, hvnext⟩ :=
        skipUnit_drop hcursor hsix (show 6 ≤ toUnsigned s.leftlength by omega)
      have hpass := pass_skipped (s := s) (by omega) hcursor hcode.four_le hcode
      rw [hskip] at hpass
      apply (Reaches.single hpass).leaves_iff.mpr
      by_cases hwrap : -2 ^ 31 ≤ s.leftlength - declaredLength tail - 6
      · -- no wrap yet: the same unit again, with less
        rw [toInt_of_mem hwrap (by omega)] at hvleft
        rw [if_pos (by omega)] at hvnext
        exact ih (n - (declaredLength tail + 6)) (by omega) (by simpa only [hvnext] using hcursor)
          (by simp only [hvleft]; omega) (by simp only [hvleft]; omega)
      · rw [toInt_add_two_pow (by omega) (by omega)] at hvleft
        rw [if_neg (by omega)] at hvnext
        have hsize := congrArg List.length hcursor
        rw [List.length_drop] at hsize
        refine Leaves.of_leave (pass_beyond ?_ ?_)
        · simp only [hvleft]
          rw [toUnsigned_of_nonneg (by omega) (by omega)]
          omega
        · simp only [hvnext]
          omega

theorem leaves_cutInSkipped (h : At srcdata tail acc s) (htail : CutInSkipped tail) :
    Leaves (parsingPsPass srcdata) s .outOfBounds := by
  have hpass := pass_cutInSkipped h htail
  obtain ⟨hcode, hsix, hcut⟩ := htail
  have hfits := h.fits
  have hdeclared := declaredLength_lt tail
  refine (Reaches.single hpass).leaves_iff.mpr (leaves_of_negative
    (2 ^ 31 + tail.length - declaredLength tail - 6) (h.cursor hcode.four_le) hcode hsix hcut ?_ ?_)
  · simp only
    omega
  · simp only
    omega

/-- The payload that a cut-off video packet still declares is copied from behind the buffer. -/
def CopiesPastEnd (acc tail : List UInt8) : Prop :=
  CutInVideo tail ∧ 3 + headerDataLength tail < declaredLength tail ∧
    declaredLength tail - 3 - headerDataLength tail + acc.length < h264FrameSizeMax

instance (acc tail : List UInt8) : Decidable (CopiesPastEnd acc tail) :=
  inferInstanceAs (Decidable (_ ∧ _))

private theorem appendPayload_none {u : UnitOut} (hlen : u.payloadDataLen ≠ 0)
    (hfit : u.payloadDataLen + s.outlength < h264FrameSizeMax)
    (hcopy : memcpy srcdata u.payloadData (toSize u.payloadDataLen) = none) :
    appendPayload srcdata s u = none := by
  rw [appendPayload, if_pos hlen, if_pos hfit, hcopy]
  rfl

private theorem pass_video_pes (h : At srcdata tail acc s) (hcode : HasStartCode 0xE0 tail)
    (hnine : 9 ≤ tail.length) :
    ∃ u : UnitOut, (u.payloadData, u.payloadDataLen) = payloadRange s.nextPack tail ∧
      u.leftlength = tail.length - declaredLength tail - 6 ∧
      (u.leftlength < 0 → u.nextPack = s.nextPack + 4) ∧
      parsingPsPass srcdata s =
        ((appendPayload srcdata s u).map fun out =>
          Pass.again ⟨u.nextPack, u.leftlength, out.1, out.2⟩).getD (.leave .outOfBounds) := by
  have hfits := h.fits
  have hdeclared := declaredLength_lt tail
  have hfour := hcode.four_le
  obtain ⟨ret, u, hpes, hrange, hleft, hnext⟩ :=
    pes_drop (h.cursor hfour) hnine (by rw [h.toUnsigned]; exact hnine)
  rw [h.leftlength, toInt_of_mem (by omega) (by omega)] at hleft
  refine ⟨u, hrange, hleft, fun hneg => by rw [hnext, if_pos hneg], ?_⟩
  rw [pass_video (h.guard hfour) (h.cursor hfour) hfour hcode, hpes]
  rfl

/-- A header longer than its packet makes the copied length negative. -/
theorem pass_headerExceedsPacket (h : At srcdata tail acc s) (htail : HeaderExceedsPacket tail) :
    parsingPsPass srcdata s = .leave .outOfBounds := by
  obtain ⟨hcode, hnine, hneg⟩ := htail
  have hheader := headerDataLength_lt tail
  have hlimit := h.limit
  obtain ⟨u, hrange, -, -, hpass⟩ := pass_video_pes h hcode hnine
  obtain ⟨hdata, hlen⟩ := Prod.mk.inj hrange
  rw [if_neg (by omega)] at hdata
  have hcount := toSize_of_neg (z := u.payloadDataLen) (by omega) (by omega)
  rw [hpass, appendPayload_none (by omega) (by rw [h.outlength]; omega)
    (by rw [hdata]; exact memcpy_null (by omega))]
  rfl

theorem pass_copiesPastEnd (h : At srcdata tail acc s) (htail : CopiesPastEnd acc tail) :
    parsingPsPass srcdata s = .leave .outOfBounds := by
  obtain ⟨⟨hcode, (hnine : 9 ≤ tail.length), hcut⟩, hpos, hfit⟩ := htail
  have hdeclared := declaredLength_lt tail
  obtain ⟨u, hrange, -, -, hpass⟩ := pass_video_pes h hcode hnine
  obtain ⟨hdata, hlen⟩ := Prod.mk.inj hrange
  rw [if_pos (by omega)] at hdata
  have hcount : toSize u.payloadDataLen = declaredLength tail - 3 - headerDataLength tail := by
    rw [hlen, toSize_of_nonneg (by omega) (by omega)]
    omega
  have hsize : srcdata.length = s.nextPack + tail.length := by
    have hcursor := congrArg List.length (h.cursor hcode.four_le)
    rw [List.length_drop] at hcursor
    omega
  rw [hpass, appendPayload_none (by omega) (by rw [h.outlength]; omega)
    (by rw [hdata, hcount]; exact memcpy_of_lt (by omega))]
  rfl

/-- Where the length field of a cut-off video packet stands there is no start code: it would have to
be the two bytes of a nonzero length. -/
theorem CutInVideo.no_startCode (h : CutInVideo tail) (id : UInt8) :
    ¬ HasStartCode id (tail.drop 4) := by
  obtain ⟨-, (hnine : 9 ≤ tail.length), hlt⟩ := h
  intro hid
  have hzero : tail.getD 4 0 = 0 ∧ tail.getD 5 0 = 0 := by
    have h4 := congrArg (fun l => l.getD 0 0) hid
    have h5 := congrArg (fun l => l.getD 1 0) hid
    simpa [startCode, List.getD_eq_getElem?_getD, List.getElem?_take] using And.intro h4 h5
  have hdeclaredZero : declaredLength tail = 0 := by
    simp only [declaredLength, hzero, littelEndianSize]
    rfl
  omega

/-- A cut-off video packet without a payload to copy: the cursor is set to its length field, where
no start code can stand, and the next pass breaks. -/
theorem run_cutInVideo (h : At srcdata tail acc s) (htail : CutInVideo tail)
    (hheader : ¬ HeaderExceedsPacket tail) (hcopy : ¬ CopiesPastEnd acc tail) :
    ∃ t, parsingPsPass srcdata s = .again t ∧ t.nextPack = s.nextPack + 4 ∧
      s.nextPack + 4 ≤ srcdata.length ∧
      parsingPsPass srcdata t = .leave (.returned (resultOf acc)) := by
  have hcut := htail
  obtain ⟨hcode, (hnine : 9 ≤ tail.length), hlt⟩ := hcut
  have hdeclared := declaredLength_lt tail
  have hfits := h.fits
  have hfour := hcode.four_le
  obtain ⟨u, hrange, hleft, hmove, hpass⟩ := pass_video_pes h hcode hnine
  obtain ⟨-, hlen⟩ := Prod.mk.inj hrange
  have hnext := hmove (by omega)
  have hlow : 3 + headerDataLength tail ≤ declaredLength tail := by
    by_contra hlow
    exact hheader ⟨hcode, hnine, by omega⟩
  have hkept : appendPayload srcdata s u = some (s.outData, s.outlength) := by
    by_cases hzero : u.payloadDataLen = 0
    · exact appendPayload_zero hzero
    · rw [appendPayload, if_pos hzero, if_neg]
      intro hfit
      rw [h.outlength] at hfit
      exact hcopy ⟨htail, by omega, by omega⟩
  rw [hkept] at hpass
  have hsize : srcdata.length = s.nextPack + tail.length := by
    have hcursor := congrArg List.length (h.cursor hfour)
    rw [List.length_drop] at hcursor
    omega
  refine ⟨_, hpass, hnext, by omega, ?_⟩
  have hcursor : srcdata.drop u.nextPack = tail.drop 4 := by
    rw [hnext, ← List.drop_drop, h.cursor hfour]
  have hfive : 4 ≤ (tail.drop 4).length := by
    rw [List.length_drop]
    omega
  rw [pass_other _ hcursor hfive (htail.no_startCode _)
    (fun hid => hid.elim (htail.no_startCode _) (htail.no_startCode _))]
  · exact congrArg (fun r => Pass.leave (PsEnd.returned r)) h.result
  · simp only
    have hunsigned := toUnsigned_of_neg (z := u.leftlength) (by omega) (by omega)
    omega

end GMProxy.TdPs
