import GMProxy.Ps.DemuxPass

/-!
# Runs of the demultiplexer over complete units

`At srcdata rest acc s` says that the loop stands in front of the bytes `rest` with the frame `acc`
collected. A complete unit moves the loop over its own bytes; a sequence of units is an induction
over this step.
-/

namespace GMProxy.TdPs

open WhileLoop CMemory

variable {srcdata rest acc : List UInt8} {s t : DemuxState}

structure At (srcdata rest acc : List UInt8) (s : DemuxState) : Prop where
  leftlength : s.leftlength = rest.length
  outData : s.outData = blockOf acc
  outlength : s.outlength = acc.length
  /-- Fewer than four bytes are never looked at, and the cursor may be behind them. -/
  cursor : 4 ≤ rest.length → srcdata.drop s.nextPack = rest
  fits : rest.length < 2 ^ 31
  limit : acc.length < h264FrameSizeMax

theorem At.guard (h : At srcdata rest acc s) (hlen : 4 ≤ rest.length) :
    4 ≤ toUnsigned s.leftlength := by
  have hfits := h.fits
  rw [h.leftlength, toUnsigned_of_nonneg (by omega) (by omega)]
  omega

theorem At.toUnsigned (h : At srcdata rest acc s) : toUnsigned s.leftlength = rest.length := by
  have hfits := h.fits
  rw [h.leftlength, toUnsigned_of_nonneg (by omega) (by omega)]
  omega

theorem At.result (h : At srcdata rest acc s) :
    (⟨UInt32.ofInt s.outlength, s.outData, s.outlength⟩ : PsResult) = resultOf acc := by
  have hret : UInt32.ofInt (acc.length : Int) = UInt32.ofNat acc.length := by
    apply UInt32.toNat_inj.mp
    simp [UInt32.ofInt]
    omega
  rw [h.outData, h.outlength, hret]
  rfl

theorem littelEndianSize_be16 {n : Nat} (h : n < 2 ^ 16) :
    littelEndianSize (UInt8.ofNat n) (UInt8.ofNat (n / 256)) = n := by
  simp only [littelEndianSize, UInt8.toNat_ofNat']
  omega

namespace PsUnit

theorem body_length_lt (u : PsUnit) : u.body.length < 2 ^ 16 := by
  cases u with
  | systemHeader body hlen => exact hlen
  | streamMap body hlen => exact hlen
  | video f1 f2 header payload hheader hlen =>
      simp only [body, List.length_append, List.length_cons, List.length_nil]
      omega

theorem encode_eq (u : PsUnit) :
    u.encode = [0x00, 0x00, 0x01, u.id, UInt8.ofNat (u.body.length / 256),
      UInt8.ofNat u.body.length] ++ u.body :=
  rfl

@[simp] theorem encode_length (u : PsUnit) : u.encode.length = 6 + u.body.length := by
  simp [encode_eq]
  omega

theorem hasStartCode_encode (u : PsUnit) (rest : List UInt8) :
    HasStartCode u.id (u.encode ++ rest) := by
  simp [HasStartCode, encode_eq, startCode]

theorem declaredLength_encode (u : PsUnit) (rest : List UInt8) :
    declaredLength (u.encode ++ rest) = u.body.length := by
  simpa [declaredLength, encode_eq] using littelEndianSize_be16 u.body_length_lt

theorem drop_encode (u : PsUnit) (rest : List UInt8) :
    (u.encode ++ rest).drop (6 + u.body.length) = rest :=
  List.drop_left' u.encode_length

end PsUnit

theorem keep_length_lt {payload : List UInt8} (h : acc.length < h264FrameSizeMax) :
    (keep acc payload).length < h264FrameSizeMax := by
  unfold keep
  split
  · next hfit => simpa [Nat.add_comm] using hfit
  · exact h

theorem keep_nil (h : acc.length < h264FrameSizeMax) : keep acc [] = acc := by
  simp [keep, h]

theorem appendPayload_zero {u : UnitOut} (hu : u.payloadDataLen = 0) :
    appendPayload srcdata s u = some (s.outData, s.outlength) := by
  simp [appendPayload, hu]

/-- A payload inside the buffer is appended as far as the size limit lets it through. -/
theorem appendPayload_at (h : At srcdata rest acc s) {u : UnitOut} {payload : List UInt8}
    {offset : Nat} (hlen : u.payloadDataLen = payload.length) (hpos : payload ≠ [])
    (hdata : u.payloadData = some offset) (hin : offset + payload.length ≤ srcdata.length)
    (hpayload : (srcdata.drop offset).take payload.length = payload)
    (hsize : payload.length < 2 ^ 16) :
    appendPayload srcdata s u =
      some (blockOf (keep acc payload), ((keep acc payload).length : Int)) := by
  have hnonzero : u.payloadDataLen ≠ 0 := by
    have := List.length_pos_iff.mpr hpos
    omega
  have hcount : toSize u.payloadDataLen = payload.length := by
    rw [hlen, toSize_of_nonneg (by omega) (by omega)]
    rfl
  have hold : (s.outData.getD []).take s.outlength.toNat = acc := by
    rw [h.outData, h.outlength, blockOf]
    by_cases hacc : acc = [] <;> simp [hacc]
  rw [appendPayload, if_pos hnonzero, hcount, hdata, memcpy_of_le hin, hpayload, hold]
  by_cases hfit : payload.length + acc.length < h264FrameSizeMax
  · have hfit' : u.payloadDataLen + s.outlength < h264FrameSizeMax := by
      rw [hlen, h.outlength]
      omega
    rw [if_pos hfit']
    simp only [keep, hfit, if_true, Option.bind_eq_bind, Option.bind_some, Option.pure_def,
      blockOf, List.append_eq_nil_iff, hpos, and_false, if_false, List.length_append]
    rw [h.outlength, hlen]
    simp
  · have hfit' : ¬ u.payloadDataLen + s.outlength < h264FrameSizeMax := by
      rw [hlen, h.outlength]
      omega
    rw [if_neg hfit', h.outData, h.outlength, keep, if_neg hfit]

private theorem left_after_unit {L : Nat} (h : At srcdata rest acc s) (hL : 6 + L ≤ rest.length) :
    toInt (s.leftlength - L - 6) = ((rest.length - (6 + L) : Nat) : Int) := by
  have hfits := h.fits
  rw [h.leftlength, toInt_of_mem (by omega) (by omega)]
  omega

private theorem cursor_after_unit {L : Nat} (h : At srcdata rest acc s) (hlen : 4 ≤ rest.length) :
    srcdata.drop (s.nextPack + (6 + L)) = rest.drop (6 + L) := by
  rw [← List.drop_drop, h.cursor hlen]

theorem pass_skipped_unit (u : PsUnit) (hid : u.id = 0xBB ∨ u.id = 0xBC)
    (hpayload : u.payload = []) (h : At srcdata (u.encode ++ rest) acc s) :
    ∃ t, parsingPsPass srcdata s = .again t ∧ At srcdata rest (keep acc u.payload) t ∧
      (4 ≤ rest.length → s.nextPack < t.nextPack) := by
  have hlen : (u.encode ++ rest).length = 6 + u.body.length + rest.length := by
    simp
  have hcode : IsSkipped (u.encode ++ rest) := by
    have hstart := u.hasStartCode_encode rest
    rcases hid with hid | hid <;> rw [hid] at hstart
    · exact Or.inl hstart
    · exact Or.inr hstart
  have hcursor := h.cursor (by omega)
  obtain ⟨ret, v, hskip, hvleft, hvnext⟩ :=
    skipUnit_drop hcursor (by omega) (by rw [h.toUnsigned]; omega)
  rw [u.declaredLength_encode, left_after_unit h (by omega), hlen,
    show 6 + u.body.length + rest.length - (6 + u.body.length) = rest.length by omega] at hvleft
  rw [hvleft, u.declaredLength_encode] at hvnext
  rw [pass_skipped (h.guard (by omega)) hcursor (by omega) hcode, hskip, hpayload,
    keep_nil h.limit]
  have hfits := h.fits
  refine ⟨_, rfl, ⟨hvleft, h.outData, h.outlength, fun h4 => ?_, by omega, h.limit⟩, fun h4 => ?_⟩
  -- only with nothing left does the helper return before it moves the cursor
  · rw [if_neg (by omega)] at hvnext
    simp only [hvnext]
    rw [cursor_after_unit h (by omega), u.drop_encode]
  · rw [if_neg (by omega)] at hvnext
    simp only [hvnext]
    omega

private theorem drop_video_payload (u : PsUnit) {f1 f2 : UInt8} {header payload : List UInt8}
    (hbody : u.body = [f1, f2, UInt8.ofNat header.length] ++ header ++ payload) {pack : Nat}
    (hcursor : srcdata.drop pack = u.encode ++ rest) :
    srcdata.drop (pack + 9 + header.length) = payload ++ rest := by
  have hsplit : u.encode ++ rest =
      ([0x00, 0x00, 0x01, u.id, UInt8.ofNat (u.body.length / 256),
        UInt8.ofNat u.body.length, f1, f2, UInt8.ofNat header.length] ++ header) ++
        (payload ++ rest) := by
    rw [u.encode_eq, hbody]
    simp
  rw [Nat.add_assoc, ← List.drop_drop, hcursor, hsplit]
  exact List.drop_left' (by simp; omega)

private theorem appendPayload_drop {all : List UInt8} (h : At srcdata all acc s) {v : UnitOut}
    {payload : List UInt8} {pack : Nat} (hlen : v.payloadDataLen = payload.length)
    (hdata : v.payloadData = if (0 : Int) < payload.length then some pack else none)
    (hdrop : srcdata.drop pack = payload ++ rest) (hsize : payload.length < 2 ^ 16) :
    appendPayload srcdata s v =
      some (blockOf (keep acc payload), ((keep acc payload).length : Int)) := by
  by_cases hempty : payload = []
  · subst hempty
    rw [appendPayload_zero (by simpa using hlen), keep_nil h.limit, h.outData, h.outlength]
  · have hpos := List.length_pos_iff.mpr hempty
    have hin : pack + payload.length ≤ srcdata.length := by
      have hdropLen := congrArg List.length hdrop
      simp only [List.length_drop, List.length_append] at hdropLen
      omega
    rw [if_pos (by omega)] at hdata
    exact appendPayload_at h hlen hempty hdata hin (by rw [hdrop]; simp) hsize

theorem pass_video_unit (u : PsUnit) {f1 f2 : UInt8} {header payload : List UInt8}
    (hid : u.id = 0xE0) (hheader : header.length < 2 ^ 8)
    (hbody : u.body = [f1, f2, UInt8.ofNat header.length] ++ header ++ payload)
    (h : At srcdata (u.encode ++ rest) acc s) :
    ∃ t, parsingPsPass srcdata s = .again t ∧ At srcdata rest (keep acc payload) t ∧
      s.nextPack < t.nextPack := by
  have hsize := u.body_length_lt
  have hbodyLen : u.body.length = 3 + header.length + payload.length := by
    simp [hbody]
    omega
  have hlen : (u.encode ++ rest).length = 6 + u.body.length + rest.length := by
    simp
  have hcursor : srcdata.drop s.nextPack = u.encode ++ rest := h.cursor (by omega)
  have hstuffing : headerDataLength (u.encode ++ rest) = header.length := by
    simp only [headerDataLength, u.encode_eq, hbody]
    simp
    omega
  have hrange : payloadRange s.nextPack (u.encode ++ rest) =
      (if (0 : Int) < payload.length then some (s.nextPack + 9 + header.length) else none,
        (payload.length : Int)) := by
    simp only [payloadRange, u.declaredLength_encode, hstuffing, hbodyLen]
    have hsub : ((3 + header.length + payload.length : Nat) : Int) - 3 - header.length =
        payload.length := by omega
    rw [hsub]
  obtain ⟨ret, v, hpes, hvrange, hvleft, hvnext⟩ :=
    pes_drop hcursor (by omega) (by rw [h.toUnsigned]; omega)
  rw [u.declaredLength_encode, left_after_unit h (by omega), hlen,
    show 6 + u.body.length + rest.length - (6 + u.body.length) = rest.length by omega] at hvleft
  rw [hvleft, u.declaredLength_encode, if_neg (by omega)] at hvnext
  rw [hrange, Prod.mk.injEq] at hvrange
  obtain ⟨hvdata, hvlen⟩ := hvrange
  have hfits := h.fits
  have happend := appendPayload_drop h hvlen hvdata (drop_video_payload u hbody hcursor) (by omega)
  have hcode : HasStartCode 0xE0 (u.encode ++ rest) := hid ▸ u.hasStartCode_encode rest
  rw [pass_video (h.guard (by omega)) hcursor (by omega) hcode, hpes]
  simp only [Option.bind_some]
  rw [happend]
  refine ⟨_, rfl, ⟨hvleft, rfl, rfl, fun _ => ?_, by omega, keep_length_lt h.limit⟩, ?_⟩
  · simp only [hvnext]
    rw [cursor_after_unit h (by omega), u.drop_encode]
  · simp only [hvnext]
    omega

/-- A complete unit is consumed by one pass, which keeps its payload. -/
theorem pass_unit (u : PsUnit) (h : At srcdata (u.encode ++ rest) acc s) :
    ∃ t, parsingPsPass srcdata s = .again t ∧ At srcdata rest (keep acc u.payload) t ∧
      (4 ≤ rest.length → s.nextPack < t.nextPack) := by
  cases u with
  | systemHeader body hlen => exact pass_skipped_unit _ (Or.inl rfl) rfl h
  | streamMap body hlen => exact pass_skipped_unit _ (Or.inr rfl) rfl h
  | video f1 f2 header payload hheader hsize =>
      obtain ⟨t, ht, hat, hmove⟩ := pass_video_unit _ rfl hheader rfl h
      exact ⟨t, ht, hat, fun _ => hmove⟩

theorem run_units (units : List PsUnit) (tail : List UInt8)
    (h : At srcdata (encodeUnits units ++ tail) acc s) :
    ∃ t, Reaches (parsingPsPass srcdata) s t ∧ At srcdata tail (keepAll acc units) t := by
  induction units generalizing acc s with
  | nil => exact ⟨s, .refl s, by simpa [encodeUnits, keepAll] using h⟩
  | cons u units ih =>
      have hu : At srcdata (u.encode ++ (encodeUnits units ++ tail)) acc s := by
        simpa [encodeUnits, List.append_assoc] using h
      obtain ⟨s', hpass, hat, _⟩ := pass_unit u hu
      obtain ⟨t, hreach, ht⟩ := ih hat
      exact ⟨t, (Reaches.single hpass).trans hreach, ht⟩

/-- What a pass over a complete unit meets wherever it starts, every pass over a sequence of units
meets, if the passes behind them do. -/
theorem everyPass_units {P : DemuxState → Pass DemuxState PsEnd → Prop} {units : List PsUnit}
    {tail : List UInt8}
    (hunit : ∀ u rest acc s t, At srcdata (PsUnit.encode u ++ rest) acc s →
      At srcdata rest (keep acc u.payload) t → (4 ≤ rest.length → s.nextPack < t.nextPack) →
      parsingPsPass srcdata s = .again t → P s (.again t))
    (h : At srcdata (encodeUnits units ++ tail) acc s)
    (htail : ∀ t, At srcdata tail (keepAll acc units) t → EveryPass (parsingPsPass srcdata) P t) :
    EveryPass (parsingPsPass srcdata) P s := by
  induction units generalizing acc s with
  | nil => exact htail s (by simpa [encodeUnits, keepAll] using h)
  | cons u units ih =>
      have hu : At srcdata (u.encode ++ (encodeUnits units ++ tail)) acc s := by
        simpa [encodeUnits, List.append_assoc] using h
      obtain ⟨t, hpass, hat, hmove⟩ := pass_unit u hu
      rw [everyPass_of_again hpass]
      exact ⟨hunit u _ acc s t hu hat hmove hpass, ih hat htail⟩

end GMProxy.TdPs
