import GMProxy.Ps.BitsWrite

/-!
# The two bit writers

`TdBits.h` has the bit writer of `TdPs.h` once more, as a function on a structure of its own. From any
cursor both replace the bits behind it and leave the others alone.
-/

namespace GMProxy

namespace TdBits

/-- `bits_buffer_t`. -/
structure BitsBuffer where
  iSize : Int
  iData : Nat
  iMask : UInt8
  pData : List UInt8
deriving DecidableEq, Repr

/-- The function `bits_write`. -/
def bitsWrite (pBuffer : BitsBuffer) : Nat → UInt64 → BitsBuffer
  | 0, _ => pBuffer
  | iCount + 1, iBits =>
      let pData :=
        if (iBits >>> UInt64.ofNat iCount) &&& 1 ≠ 0 then
          pBuffer.pData.modify pBuffer.iData (· ||| pBuffer.iMask)
        else pBuffer.pData.modify pBuffer.iData (· &&& ~~~pBuffer.iMask)
      let iMask := pBuffer.iMask >>> 1
      if iMask = 0 then
        bitsWrite { pBuffer with pData := pData, iData := pBuffer.iData + 1, iMask := 0x80 } iCount iBits
      else bitsWrite { pBuffer with pData := pData, iMask := iMask } iCount iBits

/-- The same fields as a `bits_buffer_s`. -/
def BitsBuffer.toTdPs (b : BitsBuffer) : TdPs.BitsBuffer := ⟨b.pData, b.iMask, b.iSize, b.iData⟩

/-- The function does what the macro does. -/
theorem bitsWrite_toTdPs (b : BitsBuffer) (count : Nat) (bits : UInt64) :
    (bitsWrite b count bits).toTdPs = TdPs.bitsWrite b.toTdPs count bits := by
  induction count generalizing b with
  | zero => rfl
  | succ count ih =>
      rw [bitsWrite, TdPs.bitsWrite, TdPs.BitsBuffer.writeBit]
      by_cases hbit : (bits >>> UInt64.ofNat count) &&& 1 = 0
      all_goals
        by_cases hmask : b.iMask >>> 1 = 0
        all_goals
          simp only [BitsBuffer.toTdPs, hbit, hmask, ne_eq, not_true, not_false_iff, if_true, if_false,
            bne_self_eq_false, bne_iff_ne, Bool.false_eq_true]
          exact ih _

end TdBits

namespace TdPs

open BitString

def OneBit (mask : UInt8) : Prop := ∃ i < 8, mask.toNat = 2 ^ i

/-- The number of the bit that the cursor stands in front of. -/
def BitsBuffer.position (b : BitsBuffer) : Nat := 8 * b.iData + (7 - b.iMask.toNat.log2)

variable {b b' : BitsBuffer} {k : Nat}

theorem BitsBuffer.AtBit.position_eq (h : b.AtBit k) : b.position = k := by
  rw [BitsBuffer.position, h.iData, h.iMask, Nat.log2_two_pow]
  omega

theorem BitsBuffer.AtBit.oneBit (h : b.AtBit k) : OneBit b.iMask := ⟨7 - k % 8, by omega, h.iMask⟩

/-- Every cursor with a one-bit mask stands in front of a bit. -/
theorem BitsBuffer.atBit_position (h : OneBit b.iMask) : b.AtBit b.position := by
  obtain ⟨i, hi, hmask⟩ := h
  have hposition : b.position = 8 * b.iData + (7 - i) := by
    rw [BitsBuffer.position, hmask, Nat.log2_two_pow]
  rw [hposition]
  constructor
  · omega
  · rw [hmask]
    congr 1
    omega

/-- `bits` stand in `b'` from the cursor of `b` on, and the cursor of `b'` behind them. -/
structure Written (b b' : BitsBuffer) (bits : List Bool) : Prop where
  fits : b.position + bits.length ≤ (toBits b.pData).length
  pData : toBits b'.pData = (toBits b.pData).take b.position ++ bits ++
    (toBits b.pData).drop (b.position + bits.length)
  position : b'.position = b.position + bits.length
  iMask : OneBit b'.iMask
  length : b'.pData.length = b.pData.length
  iSize : b'.iSize = b.iSize

/-- Writes one after the other leave their bits one after the other. -/
theorem Written.trans {b'' : BitsBuffer} {bits bits' : List Bool} (h : Written b b' bits)
    (h' : Written b' b'' bits') : Written b b'' (bits ++ bits') := by
  have hfront : ((toBits b.pData).take b.position ++ bits).length = b'.position := by
    rw [h.position, List.length_append, List.length_take]
    have hfits := h.fits
    omega
  have htotal : b.position + (bits ++ bits').length = b'.position + bits'.length := by
    rw [h.position, List.length_append, Nat.add_assoc]
  have hlength : (toBits b'.pData).length = (toBits b.pData).length := by
    rw [toBits_length, toBits_length, h.length]
  have hbehind : (toBits b'.pData).drop (b'.position + bits'.length) =
      (toBits b.pData).drop (b'.position + bits'.length) := by
    rw [h.pData, ← List.drop_drop, List.drop_left' hfront, ← h.position, List.drop_drop]
  refine ⟨?_, ?_, ?_, h'.iMask, h'.length.trans h.length, h'.iSize.trans h.iSize⟩
  · rw [htotal, ← hlength]
    exact h'.fits
  · rw [htotal, h'.pData, hbehind]
    conv_lhs => rw [h.pData, List.take_left' hfront]
    simp only [List.append_assoc]
  · rw [h'.position, htotal]

private theorem bitsWrite_iSize (b : BitsBuffer) (count : Nat) (bits : UInt64) :
    (bitsWrite b count bits).iSize = b.iSize := by
  induction count generalizing b with
  | zero => rfl
  | succ count ih =>
      rw [bitsWrite, ih, BitsBuffer.writeBit]
      split
      · rfl
      · rfl

theorem bitsWrite_written (hmask : OneBit b.iMask) {count : Nat} (bits : UInt64) (hcount : count ≤ 64)
    (hfit : b.position + count ≤ 8 * b.pData.length) :
    Written b (bitsWrite b count bits) (bitsOf count bits.toNat) := by
  have hat := BitsBuffer.atBit_position hmask
  have hnext := bitsWrite_atBit hat count bits
  constructor
  · rw [bitsOf_length, toBits_length]
    exact hfit
  · rw [bitsOf_length]
    exact bitsWrite_bits hat bits hcount hfit
  · rw [bitsOf_length]
    exact hnext.position_eq
  · exact hnext.oneBit
  · exact bitsWrite_length b count bits
  · exact bitsWrite_iSize b count bits

theorem bitsWriteAll_written (hmask : OneBit b.iMask) {fields : List (Nat × UInt64)}
    (hcount : ∀ field ∈ fields, field.1 ≤ 64)
    (hfit : b.position + (fieldBits fields).length ≤ 8 * b.pData.length) :
    Written b (bitsWriteAll b fields) (fieldBits fields) := by
  induction fields generalizing b with
  | nil =>
      have hfits : b.position ≤ (toBits b.pData).length := by
        rw [toBits_length]
        exact hfit
      exact ⟨hfits, by simp [bitsWriteAll, fieldBits], rfl, hmask, rfl, rfl⟩
  | cons field fields ih =>
      obtain ⟨hfield, hfields⟩ := List.forall_mem_cons.mp hcount
      have hsplit : fieldBits (field :: fields) =
          bitsOf field.1 field.2.toNat ++ fieldBits fields := List.flatMap_cons ..
      rw [hsplit, List.length_append, bitsOf_length] at hfit
      have hfirst := bitsWrite_written hmask field.2 hfield (by omega)
      rw [hsplit]
      apply hfirst.trans
      apply ih hfirst.iMask hfields
      rw [hfirst.position, bitsOf_length, hfirst.length]
      omega

/-- A write replaces exactly the bits at the cursor by the low bits of the value, and a sequence of
writes leaves the values one after the other. The function of `TdBits.h` does the same. -/
theorem bits_written (b : BitsBuffer) (hmask : OneBit b.iMask) :
    (∀ (count : Nat) (bits : UInt64), count ≤ 64 →
      b.position + count ≤ 8 * b.pData.length →
        Written b (bitsWrite b count bits) (bitsOf count bits.toNat)) ∧
    (∀ fields : List (Nat × UInt64), (∀ field ∈ fields, field.1 ≤ 64) →
      b.position + (fieldBits fields).length ≤ 8 * b.pData.length →
        Written b (bitsWriteAll b fields) (fieldBits fields)) ∧
    ∀ b' : TdBits.BitsBuffer, b'.toTdPs = b → ∀ (count : Nat) (bits : UInt64),
      (TdBits.bitsWrite b' count bits).toTdPs = bitsWrite b count bits := by
  refine ⟨fun count bits => bitsWrite_written hmask bits, fun fields => bitsWriteAll_written hmask, ?_⟩
  intro b' hsame count bits
  rw [TdBits.bitsWrite_toTdPs, hsame]

/-- Fields of 5 and 7 bits from the third bit of a block on. -/
theorem bits_written_threeBytes :
    toBits (bitsWriteAll ⟨[0xFF, 0x00, 0xFF], 0x20, 3, 0⟩ [(5, 9), (7, 0x55)]).pData =
      [true, true, false, true, false, false, true, true, false, true, false, true, false, true,
        false, false] ++ byteBits 0xFF := by
  have hmask : OneBit 0x20 := ⟨5, by decide, rfl⟩
  have hwritten := (bits_written ⟨[0xFF, 0x00, 0xFF], 0x20, 3, 0⟩ hmask).2.1 [(5, 9), (7, 0x55)]
    (by decide) (by decide)
  exact hwritten.pData

end TdPs

end GMProxy
