import GMProxy.Ps.Mux

/-!
# Time stamps in the headers

The 33-bit values of the headers, three groups of bits with a marker bit behind each, and how they
are read back.
-/

namespace GMProxy.TdPs

open BitString

variable {bytes : List UInt8} {first : Nat} {v : UInt64}

/-- The value of the `count` bits of `bytes` from bit `first` on. -/
def bitField (bytes : List UInt8) (first count : Nat) : Nat :=
  bitsValue (((toBits bytes).drop first).take count)

/-- The value of the 33-bit field whose first group starts at bit `first`. -/
def timeStampAt (bytes : List UInt8) (first : Nat) : Nat :=
  bitField bytes first 3 * 2 ^ 30 + bitField bytes (first + 4) 15 * 2 ^ 15 +
    bitField bytes (first + 20) 15

/-- `system_clock_reference_base` of a pack. -/
def scrBase (pack : List UInt8) : Nat := timeStampAt pack 34

/-- The `PTS` of a PES packet. -/
def ptsOf (unit : List UInt8) : Nat := timeStampAt unit 76

/-- The `DTS` of a PES packet. -/
def dtsOf (unit : List UInt8) : Nat := timeStampAt unit 116

/-- The fields of a 33-bit value. -/
def clockFields (v : UInt64) : List (Nat × UInt64) :=
  [(3, (v >>> 30) &&& 0x07), (1, 1), (15, (v >>> 15) &&& 0x7FFF), (1, 1), (15, v &&& 0x7FFF), (1, 1)]

/-- The fields of `v` stand in `bytes` from bit `first` on. -/
def HasClock (bytes : List UInt8) (first : Nat) (v : UInt64) : Prop :=
  ∃ before behind, toBits bytes = before ++ fieldBits (clockFields v) ++ behind ∧
    before.length = first

theorem HasClock.append (h : HasClock bytes first v) (rest : List UInt8) :
    HasClock (bytes ++ rest) first v := by
  obtain ⟨before, behind, hbits, hfirst⟩ := h
  exact ⟨before, behind ++ toBits rest, by rw [toBits_append, hbits, List.append_assoc], hfirst⟩

theorem bitField_of_bits {before behind : List Bool} {count : Nat} (first value : Nat)
    (hbits : toBits bytes = before ++ (bitsOf count value ++ behind)) (hfirst : before.length = first) :
    bitField bytes first count = value % 2 ^ count := by
  rw [bitField, hbits, List.drop_left' hfirst, List.take_left' (bitsOf_length count value),
    bitsValue_bitsOf]

private theorem clock_groups (v : UInt64) :
    ((v >>> 30) &&& 0x07).toNat = v.toNat / 2 ^ 30 % 2 ^ 3 ∧
      ((v >>> 15) &&& 0x7FFF).toNat = v.toNat / 2 ^ 15 % 2 ^ 15 ∧
      (v &&& 0x7FFF).toNat = v.toNat % 2 ^ 15 := by
  refine ⟨?_, ?_, ?_⟩
  · rw [UInt64.toNat_and, UInt64.toNat_shiftRight, Nat.shiftRight_eq_div_pow]
    exact Nat.and_two_pow_sub_one_eq_mod _ 3
  · rw [UInt64.toNat_and, UInt64.toNat_shiftRight, Nat.shiftRight_eq_div_pow]
    exact Nat.and_two_pow_sub_one_eq_mod _ 15
  · rw [UInt64.toNat_and]
    exact Nat.and_two_pow_sub_one_eq_mod _ 15

/-- A written stamp is read back modulo `2 ^ 33`. -/
theorem HasClock.timeStampAt_eq (h : HasClock bytes first v) :
    timeStampAt bytes first = v.toNat % 2 ^ 33 := by
  obtain ⟨before, behind, hbits, rfl⟩ := h
  obtain ⟨hhigh, hmiddle, hlow⟩ := clock_groups v
  have hsplit : toBits bytes = before ++ (bitsOf 3 (v.toNat / 2 ^ 30 % 2 ^ 3) ++ (bitsOf 1 1 ++
      (bitsOf 15 (v.toNat / 2 ^ 15 % 2 ^ 15) ++ (bitsOf 1 1 ++ (bitsOf 15 (v.toNat % 2 ^ 15) ++
        (bitsOf 1 1 ++ behind)))))) := by
    rw [hbits, clockFields, fieldBits]
    simp only [List.flatMap_cons, List.flatMap_nil, List.append_nil, List.append_assoc, hhigh,
      hmiddle, hlow]
    rfl
  have h30 := bitField_of_bits _ (v.toNat / 2 ^ 30 % 2 ^ 3) hsplit rfl
  rw [← List.append_assoc, ← List.append_assoc] at hsplit
  have h15 := bitField_of_bits (before.length + 4) (v.toNat / 2 ^ 15 % 2 ^ 15) hsplit
    (by simp only [List.length_append, bitsOf_length])
  rw [← List.append_assoc, ← List.append_assoc] at hsplit
  have h0 := bitField_of_bits (before.length + 20) (v.toNat % 2 ^ 15) hsplit
    (by simp only [List.length_append, bitsOf_length])
  rw [timeStampAt, h30, h15, h0]
  omega

end GMProxy.TdPs
