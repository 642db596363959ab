import GMProxy.Ps.DemuxTail

/-!
# Every buffer is a sequence of complete units and a tail

Complete units are cut off the front of a byte list as long as there is one. What is left is one of
the tails of `DemuxTail`.
-/

namespace GMProxy.TdPs

variable {bytes : List UInt8}

private theorem toNat_eq_of_getD {n i : Nat} (h : n = (bytes.getD i 0).toNat) :
    UInt8.ofNat n = bytes.getD i 0 := by
  rw [h, UInt8.ofNat_toNat]

theorem be16_declaredLength (unit : List UInt8) :
    be16 (declaredLength unit) = [unit.getD 4 0, unit.getD 5 0] := by
  have hlow := (unit.getD 5 0).toNat_lt
  have hhigh := (unit.getD 4 0).toNat_lt
  have h4 : UInt8.ofNat (declaredLength unit / 256) = unit.getD 4 0 := by
    apply toNat_eq_of_getD
    simp only [declaredLength, littelEndianSize]
    omega
  have h5 : UInt8.ofNat (declaredLength unit) = unit.getD 5 0 := by
    apply UInt8.toNat_inj.mp
    simp only [declaredLength, littelEndianSize, UInt8.toNat_ofNat']
    omega
  rw [be16, h4, h5]

private theorem getD_pair (hlen : 6 ≤ bytes.length) :
    (bytes.drop 4).take 2 = [bytes.getD 4 0, bytes.getD 5 0] := by
  apply List.ext_getElem
  · simp only [List.length_take, List.length_drop, List.length_cons, List.length_nil]
    omega
  · intro i hi hi'
    have hi2 : i = 0 ∨ i = 1 := by
      simp only [List.length_cons, List.length_nil] at hi'
      omega
    rcases hi2 with rfl | rfl <;>
      simp [List.getD_eq_getElem?_getD, List.getElem?_eq_getElem (show 4 < bytes.length by omega),
        List.getElem?_eq_getElem (show 5 < bytes.length by omega)]

/-- The first six bytes of a unit, its declared body and the rest. -/
theorem split_unit {id : UInt8} (hcode : HasStartCode id bytes)
    (hsix : 6 ≤ bytes.length) :
    bytes = startCode id ++ be16 (declaredLength bytes) ++
      (bytes.drop 6).take (declaredLength bytes) ++ bytes.drop (6 + declaredLength bytes) := by
  rw [be16_declaredLength, ← getD_pair hsix, List.append_assoc (_ ++ _), ← List.drop_drop,
    List.take_append_drop, ← (show bytes.take 4 = startCode id from hcode), List.append_assoc,
    show (6 : Nat) = 4 + 2 from rfl, ← List.drop_drop, List.take_append_drop,
    List.take_append_drop]

theorem exists_unit_of_isSkipped (hcode : IsSkipped bytes) (hsix : 6 ≤ bytes.length)
    (hin : 6 + declaredLength bytes ≤ bytes.length) :
    ∃ u rest, bytes = PsUnit.encode u ++ rest := by
  have hbody : ((bytes.drop 6).take (declaredLength bytes)).length = declaredLength bytes := by
    simp only [List.length_take, List.length_drop]
    omega
  have hlt := declaredLength_lt bytes
  rcases hcode with hcode | hcode
  · refine ⟨.systemHeader ((bytes.drop 6).take (declaredLength bytes)) (by omega),
      bytes.drop (6 + declaredLength bytes), ?_⟩
    have hsplit := split_unit hcode hsix
    rw [← hbody] at hsplit
    simpa only [PsUnit.encode, PsUnit.body, PsUnit.id, hbody] using hsplit
  · refine ⟨.streamMap ((bytes.drop 6).take (declaredLength bytes)) (by omega),
      bytes.drop (6 + declaredLength bytes), ?_⟩
    have hsplit := split_unit hcode hsix
    rw [← hbody] at hsplit
    simpa only [PsUnit.encode, PsUnit.body, PsUnit.id, hbody] using hsplit

private theorem split_video_body {body : List UInt8} {n : Nat}
    (hthree : 3 + n ≤ body.length) (hn : (body.getD 2 0).toNat = n) :
    body = [body.getD 0 0, body.getD 1 0, UInt8.ofNat n] ++ (body.drop 3).take n ++
      body.drop (3 + n) := by
  have hhead : body.take 3 = [body.getD 0 0, body.getD 1 0, UInt8.ofNat n] := by
    match body, hthree with
    | b0 :: b1 :: b2 :: rest, _ =>
        simp only [List.getD_cons_succ, List.getD_cons_zero] at hn ⊢
        rw [← hn, UInt8.ofNat_toNat]
        rfl
    | [], h => simp at h
    | [_], h => simp at h; omega
    | [_, _], h => simp at h; omega
  rw [← hhead, List.append_assoc, ← List.drop_drop, List.take_append_drop, List.take_append_drop]

theorem exists_unit_of_video (hcode : HasStartCode 0xE0 bytes) (hnine : 9 ≤ bytes.length)
    (hin : 6 + declaredLength bytes ≤ bytes.length)
    (hheader : 3 + headerDataLength bytes ≤ declaredLength bytes) :
    ∃ u rest, bytes = PsUnit.encode u ++ rest := by
  let body := (bytes.drop 6).take (declaredLength bytes)
  have hbody : body.length = declaredLength bytes := by
    simp only [body, List.length_take, List.length_drop]
    omega
  have hlt := declaredLength_lt bytes
  have hheaderLt := headerDataLength_lt bytes
  have hthird : (body.getD 2 0).toNat = headerDataLength bytes := by
    simp only [body, headerDataLength, List.getD_eq_getElem?_getD, List.getElem?_take,
      List.getElem?_drop]
    rw [if_pos (by omega)]
  have hvideo := split_video_body (by omega) hthird
  have hheaderLen : ((body.drop 3).take (headerDataLength bytes)).length =
      headerDataLength bytes := by
    simp only [List.length_take, List.length_drop]
    omega
  refine ⟨.video (body.getD 0 0) (body.getD 1 0) ((body.drop 3).take (headerDataLength bytes))
    (body.drop (3 + headerDataLength bytes)) (by omega) ?_,
    bytes.drop (6 + declaredLength bytes), ?_⟩
  · simp only [List.length_drop]
    omega
  · have hsplit := split_unit hcode (by omega)
    simp only [PsUnit.encode, PsUnit.body, PsUnit.id, hheaderLen]
    rw [← hvideo, hbody]
    exact hsplit

/-- A tail that does not begin with a complete unit. -/
theorem tail_cases (h : ¬ ∃ u rest, bytes = PsUnit.encode u ++ rest) :
    EndsPack bytes ∨ CutInHeader bytes ∨ CutInSkipped bytes ∨ HeaderExceedsPacket bytes ∨
      CutInVideo bytes := by
  by_cases hvideo : HasStartCode 0xE0 bytes
  · by_cases hnine : 9 ≤ bytes.length
    · by_cases hheader : declaredLength bytes < 3 + headerDataLength bytes
      · exact Or.inr (Or.inr (Or.inr (Or.inl ⟨hvideo, hnine, hheader⟩)))
      · by_cases hin : 6 + declaredLength bytes ≤ bytes.length
        · exact absurd (exists_unit_of_video hvideo hnine hin (by omega)) h
        · exact Or.inr (Or.inr (Or.inr (Or.inr ⟨hvideo, hnine, by omega⟩)))
    · exact Or.inr (Or.inl (Or.inl ⟨hvideo, Nat.lt_of_not_le hnine⟩))
  · by_cases hskip : IsSkipped bytes
    · by_cases hsix : 6 ≤ bytes.length
      · by_cases hin : 6 + declaredLength bytes ≤ bytes.length
        · exact absurd (exists_unit_of_isSkipped hskip hsix hin) h
        · exact Or.inr (Or.inr (Or.inl ⟨hskip, hsix, by omega⟩))
      · exact Or.inr (Or.inl (Or.inr ⟨hskip, Nat.lt_of_not_le hsix⟩))
    · exact Or.inl ⟨hvideo, hskip⟩

/-- Cutting complete units off the front comes to an end. -/
theorem exists_units (bytes : List UInt8) :
    ∃ units tail, bytes = encodeUnits units ++ tail ∧
      ¬ ∃ u rest, tail = PsUnit.encode u ++ rest := by
  induction hn : bytes.length using Nat.strongRecOn generalizing bytes with
  | ind n ih =>
      by_cases hunit : ∃ u rest, bytes = PsUnit.encode u ++ rest
      · obtain ⟨u, rest, hu⟩ := hunit
        have hlt : rest.length < n := by
          rw [← hn, hu, List.length_append, u.encode_length]
          omega
        obtain ⟨units, tail, hrest, htail⟩ := ih rest.length hlt rest rfl
        refine ⟨u :: units, tail, ?_, htail⟩
        rw [hu, hrest, encodeUnits, encodeUnits, List.flatMap_cons, List.append_assoc]
      · exact ⟨[], bytes, by simp [encodeUnits], hunit⟩

end GMProxy.TdPs
