import GMProxy.Library.BitString

/-!
# The bit writer

`bits_write` of `TdPs.h`, one bit at a time through a byte index and a one-bit mask. A sequence of
writes replaces the bits at the cursor by the fields, most significant bit first.
-/

namespace GMProxy.TdPs

open BitString

/-- `bits_buffer_s`; `pData` is the block from the pointer on. -/
structure BitsBuffer where
  pData : List UInt8
  iMask : UInt8
  iSize : Int
  iData : Nat
deriving DecidableEq, Repr

/-- The loop body of `bits_write` for one bit. -/
def BitsBuffer.writeBit (b : BitsBuffer) (bit : Bool) : BitsBuffer :=
  let pData := b.pData.modify b.iData fun x => if bit then x ||| b.iMask else x &&& ~~~b.iMask
  let iMask := b.iMask >>> 1
  if iMask = 0 then { b with pData := pData, iMask := 0x80, iData := b.iData + 1 }
  else { b with pData := pData, iMask := iMask }

/-- `bits_write`: the bits of `bits` from number `count - 1` down to 0. -/
def bitsWrite (b : BitsBuffer) : Nat → UInt64 → BitsBuffer
  | 0, _ => b
  | iCount + 1, iBits =>
      bitsWrite (b.writeBit ((iBits >>> UInt64.ofNat iCount) &&& 1 != 0)) iCount iBits

/-- A sequence of `bits_write` calls. -/
def bitsWriteAll (b : BitsBuffer) (fields : List (Nat × UInt64)) : BitsBuffer :=
  fields.foldl (fun b field => bitsWrite b field.1 field.2) b

/-- The cursor stands in front of bit `k` of the block. -/
structure BitsBuffer.AtBit (b : BitsBuffer) (k : Nat) : Prop where
  iData : b.iData = k / 8
  iMask : b.iMask.toNat = 2 ^ (7 - k % 8)

variable {b : BitsBuffer} {k : Nat}

private theorem testBit_write (x : UInt8) (mask : UInt8) (bit : Bool) (i : Nat) {p : Nat}
    (hmask : mask.toNat = 2 ^ p) (hi : i < 8) :
    (if bit then x ||| mask else x &&& ~~~mask).toNat.testBit i =
      if i = p then bit else x.toNat.testBit i := by
  cases bit
  · have hnot : (~~~mask).toNat.testBit i = !decide (p = i) := by
      have hcompl : (~~~mask).toNat = 2 ^ 8 - (2 ^ p + 1) := by
        rw [UInt8.toNat_not, hmask]
        simp only [UInt8.size]
        omega
      have hlt : 2 ^ p < 2 ^ 8 := by
        rw [← hmask]
        exact mask.toNat_lt
      rw [hcompl, Nat.testBit_two_pow_sub_succ hlt, Nat.testBit_two_pow]
      simp [hi]
    simp only [Bool.false_eq_true, if_false, UInt8.toNat_and, Nat.testBit_and, hnot]
    by_cases hip : i = p
    · simp [hip]
    · simp [hip, Ne.symm hip]
  · simp only [if_true, UInt8.toNat_or, Nat.testBit_or, hmask, Nat.testBit_two_pow]
    by_cases hip : i = p
    · simp [hip]
    · simp [hip, Ne.symm hip]

private theorem writeBit_pData (b : BitsBuffer) (bit : Bool) :
    (b.writeBit bit).pData =
      b.pData.modify b.iData fun x => if bit then x ||| b.iMask else x &&& ~~~b.iMask := by
  unfold BitsBuffer.writeBit
  simp only
  split <;> rfl

@[simp] theorem writeBit_length (b : BitsBuffer) (bit : Bool) :
    (b.writeBit bit).pData.length = b.pData.length := by
  rw [writeBit_pData, List.length_modify]

theorem writeBit_bits (h : b.AtBit k) (bit : Bool) :
    toBits (b.writeBit bit).pData = (toBits b.pData).set k bit := by
  apply List.ext_getElem?
  intro j
  by_cases hj : j / 8 < b.pData.length
  · have hread := List.getElem?_eq_getElem hj
    have hold := toBits_getElem? hread
    have hnew : (b.writeBit bit).pData[j / 8]? = some
        (if b.iData = j / 8 then
          (if bit then b.pData[j / 8] ||| b.iMask else b.pData[j / 8] &&& ~~~b.iMask)
        else b.pData[j / 8]) := by
      rw [writeBit_pData, List.getElem?_modify, hread]
      split <;> rfl
    rw [toBits_getElem? hnew, List.getElem?_set, hold]
    have hbits : j < (toBits b.pData).length := by
      rw [toBits_length]
      omega
    rw [h.iData]
    by_cases hbyte : k / 8 = j / 8
    · rw [if_pos hbyte, testBit_write _ _ bit _ h.iMask (by omega)]
      by_cases hjk : k = j
      · subst hjk
        rw [if_pos rfl, if_pos rfl, if_pos hbits]
      · rw [if_neg hjk, if_neg (by omega)]
    · rw [if_neg hbyte, if_neg (by omega)]
  · have hout : 8 * b.pData.length ≤ j := by omega
    rw [List.getElem?_eq_none (by simpa using hout), List.getElem?_eq_none (by simpa using hout)]

theorem writeBit_atBit (h : b.AtBit k) (bit : Bool) : (b.writeBit bit).AtBit (k + 1) := by
  have hshift : (b.iMask >>> 1).toNat = 2 ^ (7 - k % 8) / 2 := by
    rw [UInt8.toNat_shiftRight, h.iMask]
    rfl
  unfold BitsBuffer.writeBit
  by_cases hlast : k % 8 = 7
  · have hzero : b.iMask >>> 1 = 0 := by
      apply UInt8.toNat_inj.mp
      rw [hshift, hlast]
      rfl
    simp only [hzero, if_true]
    constructor
    · simp only [h.iData]
      omega
    · rw [show (k + 1) % 8 = 0 by omega]
      rfl
  · have hpow : 2 ^ (7 - k % 8) / 2 = 2 ^ (7 - (k + 1) % 8) := by
      rw [show 7 - k % 8 = (7 - (k + 1) % 8) + 1 by omega, Nat.pow_succ]
      exact Nat.mul_div_cancel _ (by decide)
    have hne : b.iMask >>> 1 ≠ 0 := by
      intro hzero
      have hnat := congrArg UInt8.toNat hzero
      rw [hshift, hpow] at hnat
      exact absurd hnat (Nat.pos_iff_ne_zero.mp (Nat.two_pow_pos _))
    simp only [hne, if_false]
    constructor
    · simp only [h.iData]
      omega
    · simp only
      rw [hshift, hpow]

private theorem bit_eq_testBit (iBits : UInt64) {iCount : Nat} (h : iCount < 64) :
    ((iBits >>> UInt64.ofNat iCount) &&& 1 != 0) = iBits.toNat.testBit iCount := by
  have hnat : ((iBits >>> UInt64.ofNat iCount) &&& 1).toNat = (iBits.toNat >>> iCount) % 2 := by
    rw [UInt64.toNat_and, UInt64.toNat_shiftRight, UInt64.toNat_ofNat',
      Nat.mod_eq_of_lt (show iCount < 2 ^ 64 by omega), Nat.mod_eq_of_lt h]
    exact Nat.and_one_is_mod _
  have hbit : iBits.toNat.testBit iCount = decide ((iBits.toNat >>> iCount) % 2 = 1) := by
    rw [Nat.testBit_eq_decide_div_mod_eq, Nat.shiftRight_eq_div_pow]
  rw [hbit, ← hnat]
  by_cases hzero : (iBits >>> UInt64.ofNat iCount) &&& 1 = 0
  · rw [hzero]
    rfl
  · have hne : ((iBits >>> UInt64.ofNat iCount) &&& 1).toNat ≠ 0 := fun h0 =>
      hzero (UInt64.toNat_inj.mp h0)
    have hone : ((iBits >>> UInt64.ofNat iCount) &&& 1).toNat = 1 := by
      rw [hnat] at hne ⊢
      omega
    rw [hone]
    simp [bne, hzero]

@[simp] theorem bitsWrite_length (b : BitsBuffer) (count : Nat) (bits : UInt64) :
    (bitsWrite b count bits).pData.length = b.pData.length := by
  induction count generalizing b with
  | zero => rfl
  | succ count ih => rw [bitsWrite, ih, writeBit_length]

theorem bitsWrite_atBit (h : b.AtBit k) (count : Nat) (bits : UInt64) :
    (bitsWrite b count bits).AtBit (k + count) := by
  induction count generalizing b k with
  | zero => exact h
  | succ count ih =>
      rw [bitsWrite, show k + (count + 1) = k + 1 + count by omega]
      exact ih (writeBit_atBit h _)

/-- One write replaces the `count` bits at the cursor. -/
theorem bitsWrite_bits (h : b.AtBit k) {count : Nat} (bits : UInt64) (hcount : count ≤ 64)
    (hfit : k + count ≤ 8 * b.pData.length) :
    toBits (bitsWrite b count bits).pData =
      (toBits b.pData).take k ++ bitsOf count bits.toNat ++ (toBits b.pData).drop (k + count) := by
  induction count generalizing b k with
  | zero => simp [bitsWrite, bitsOf]
  | succ count ih =>
      have hk : k < (toBits b.pData).length := by
        rw [toBits_length]
        omega
      rw [bitsWrite, ih (writeBit_atBit h _) (by omega) (by rw [writeBit_length]; omega),
        writeBit_bits h, bit_eq_testBit bits (by omega), bitsOf,
        List.drop_set_of_lt (by omega), List.take_set, List.take_succ_eq_append_getElem hk,
        List.set_append_right _ _ (by rw [List.length_take]; omega), List.length_take,
        Nat.min_eq_left (by omega), Nat.sub_self, List.set_cons_zero,
        show k + 1 + count = k + (count + 1) by omega]
      simp only [List.append_assoc, List.cons_append, List.nil_append]

def fieldBits (fields : List (Nat × UInt64)) : List Bool :=
  fields.flatMap fun field => bitsOf field.1 field.2.toNat

/-- A sequence of writes leaves the fields one after the other. -/
theorem bitsWriteAll_bits (fields : List (Nat × UInt64)) (h : b.AtBit k)
    (hcount : ∀ field ∈ fields, field.1 ≤ 64)
    (hfit : k + (fieldBits fields).length ≤ 8 * b.pData.length) :
    toBits (bitsWriteAll b fields).pData =
      (toBits b.pData).take k ++ fieldBits fields ++
        (toBits b.pData).drop (k + (fieldBits fields).length) := by
  induction fields generalizing b k with
  | nil => simp [bitsWriteAll, fieldBits]
  | cons field fields ih =>
      have hsplit : fieldBits (field :: fields) =
          bitsOf field.1 field.2.toNat ++ fieldBits fields := List.flatMap_cons ..
      rw [hsplit, List.length_append, bitsOf_length] at hfit
      have hone := bitsWrite_bits h field.2 (hcount field (by simp)) (by omega)
      have hrest := ih (bitsWrite_atBit h field.1 field.2)
        (fun f hf => hcount f (by simp [hf])) (by rw [bitsWrite_length]; omega)
      have hprefix : ((toBits b.pData).take k ++ bitsOf field.1 field.2.toNat).length =
          k + field.1 := by
        rw [List.length_append, List.length_take, bitsOf_length, toBits_length]
        omega
      have hbehind (n : Nat) : ((toBits b.pData).take k ++ bitsOf field.1 field.2.toNat ++
          (toBits b.pData).drop (k + field.1)).drop (k + field.1 + n) =
            (toBits b.pData).drop (k + (field.1 + n)) := by
        rw [← List.drop_drop, List.drop_left' hprefix, List.drop_drop, Nat.add_assoc]
      rw [bitsWriteAll, List.foldl_cons, ← bitsWriteAll, hrest, hone, hsplit, hbehind,
        List.take_left' hprefix, List.length_append, bitsOf_length]
      simp only [List.append_assoc]

end GMProxy.TdPs
