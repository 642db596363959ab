import GMProxy.Ps.Grammar

/-!
# One pass of the demultiplexer

What a pass of the loop of `parsingPs` does, by the bytes at the cursor: a complete unit, a unit
cut off by the end of the buffer, or anything else.
-/

namespace GMProxy.TdPs

open WhileLoop CMemory

variable {srcdata rest acc : List UInt8} {s : DemuxState} {pack : Nat} {length : Int}

private theorem read_drop (h : srcdata.drop pack = rest) (i : Nat) :
    srcdata[pack + i]? = rest[i]? := by
  rw [← h, List.getElem?_drop]

private theorem matchesAt_drop (code : List UInt8) (h : srcdata.drop pack = rest)
    (hlen : code.length ≤ rest.length) :
    matchesAt srcdata pack code = some (decide (rest.take code.length = code)) := by
  induction code generalizing pack rest with
  | nil => simp [matchesAt]
  | cons b bs ih =>
      cases rest with
      | nil => simp at hlen
      | cons c cs =>
          have hc : srcdata[pack]? = some c := by simpa using read_drop h 0
          have htail : srcdata.drop (pack + 1) = cs := by
            rw [← List.drop_drop, h, List.drop_one, List.tail_cons]
          have hbs := ih htail (by simpa using hlen)
          by_cases hcb : c = b
          · simp [matchesAt, hc, hcb, hbs]
          · simp [matchesAt, hc, hcb]

theorem matchesAt_startCode (id : UInt8) (h : srcdata.drop pack = rest) (hlen : 4 ≤ rest.length) :
    matchesAt srcdata pack (startCode id) = some (decide (HasStartCode id rest)) :=
  matchesAt_drop (startCode id) h hlen

theorem packLength_drop (h : srcdata.drop pack = rest) (hlen : 6 ≤ rest.length) :
    packLength srcdata pack = some (declaredLength rest) := by
  have h4 : rest[4]? = some (rest.getD 4 0) := by
    simp [List.getD_eq_getElem?_getD, List.getElem?_eq_getElem (show 4 < rest.length by omega)]
  have h5 : rest[5]? = some (rest.getD 5 0) := by
    simp [List.getD_eq_getElem?_getD, List.getElem?_eq_getElem (show 5 < rest.length by omega)]
  simp only [packLength, read_drop h, h4, h5]
  rfl

theorem declaredLength_lt (unit : List UInt8) : declaredLength unit < 2 ^ 16 := by
  have hlow := (unit.getD 5 0).toNat_lt
  have hhigh := (unit.getD 4 0).toNat_lt
  simp only [declaredLength, littelEndianSize]
  omega

theorem headerDataLength_lt (unit : List UInt8) : headerDataLength unit < 2 ^ 8 :=
  (unit.getD 8 0).toNat_lt

theorem skipUnit_short (h : toUnsigned length < 6) :
    skipUnit srcdata pack length = some (0, ⟨pack, length, none, 0⟩) :=
  if_pos h

theorem skipUnit_drop (hrest : srcdata.drop pack = rest) (hlen : 6 ≤ rest.length)
    (h : 6 ≤ toUnsigned length) :
    ∃ ret u, skipUnit srcdata pack length = some (ret, u) ∧
      u.leftlength = toInt (length - declaredLength rest - 6) ∧
      u.nextPack = if u.leftlength ≤ 0 then pack else pack + (6 + declaredLength rest) := by
  have hsub : length - (declaredLength rest : Int) - (sizeofProgramStreamMap : Nat) =
      length - declaredLength rest - 6 := rfl
  rw [skipUnit, if_neg (by simpa [sizeofProgramStreamMap] using h), packLength_drop hrest hlen]
  simp only [Option.pure_def, Option.bind_eq_bind, Option.bind_some, hsub]
  by_cases hneg : toInt (length - declaredLength rest - 6) ≤ 0
  · rw [if_pos hneg]
    exact ⟨_, _, rfl, rfl, (if_pos hneg).symm⟩
  · rw [if_neg hneg]
    refine ⟨_, _, rfl, rfl, ?_⟩
    rw [if_neg hneg]
    simp only [sizeofProgramStreamMap]
    omega

theorem pes_short (h : toUnsigned length < 9) :
    pes srcdata pack length = some (0, ⟨pack, length, none, 0⟩) :=
  if_pos h

/-- The payload range that `Pes` stores. -/
def payloadRange (pack : Nat) (unit : List UInt8) : Option Nat × Int :=
  let len : Int := declaredLength unit - 3 - headerDataLength unit
  (if 0 < len then some (pack + 9 + headerDataLength unit) else none, len)

theorem pes_drop (hrest : srcdata.drop pack = rest) (hlen : 9 ≤ rest.length)
    (h : 9 ≤ toUnsigned length) :
    ∃ ret u, pes srcdata pack length = some (ret, u) ∧
      (u.payloadData, u.payloadDataLen) = payloadRange pack rest ∧
      u.leftlength = toInt (length - declaredLength rest - 6) ∧
      u.nextPack = if u.leftlength < 0 then pack + 4 else pack + (6 + declaredLength rest) := by
  have h8 : srcdata[pack + 8]? = some (rest.getD 8 0) := by
    rw [read_drop hrest]
    simp [List.getD_eq_getElem?_getD, List.getElem?_eq_getElem (show 8 < rest.length by omega)]
  have hsub : length - (declaredLength rest : Int) - (sizeofPackStartCode : Nat) -
      (sizeofLittelEndianSize : Nat) = length - declaredLength rest - 6 := by
    simp only [sizeofPackStartCode, sizeofLittelEndianSize]
    omega
  have hlenEq : (declaredLength rest : Int) - 2 - 1 - (rest.getD 8 0).toNat =
      declaredLength rest - 3 - headerDataLength rest := by
    simp only [headerDataLength]
    omega
  rw [pes, if_neg (by simpa [sizeofProgramStreamE] using h),
    packLength_drop hrest (by omega), h8]
  simp only [Option.pure_def, Option.bind_eq_bind, Option.bind_some, hsub, hlenEq]
  by_cases hneg : toInt (length - declaredLength rest - 6) < 0
  · rw [if_pos hneg]
    exact ⟨_, _, rfl, rfl, rfl, (if_pos hneg).symm⟩
  · rw [if_neg hneg]
    refine ⟨_, _, rfl, rfl, rfl, ?_⟩
    rw [if_neg hneg]
    simp only [sizeofPackStartCode, sizeofLittelEndianSize]
    omega

theorem startCode_ne {id id' : UInt8} (h : HasStartCode id rest) (hne : id ≠ id') :
    ¬ HasStartCode id' rest := by
  intro h'
  simp only [HasStartCode] at h h'
  rw [h] at h'
  simp only [startCode, List.cons.injEq, and_true, true_and] at h'
  exact hne h'

section Branches

variable (hguard : 4 ≤ toUnsigned s.leftlength) (hrest : srcdata.drop s.nextPack = rest)
  (hlen : 4 ≤ rest.length)

include hguard hrest hlen

theorem pass_video (hcode : HasStartCode 0xE0 rest) :
    parsingPsPass srcdata s =
      ((pes srcdata s.nextPack s.leftlength).bind fun p =>
        (appendPayload srcdata s p.2).map fun out =>
          Pass.again ⟨p.2.nextPack, p.2.leftlength, out.1, out.2⟩).getD (.leave .outOfBounds) := by
  rw [parsingPsPass, parsingPsStep, if_pos (by simpa [sizeofPackStartCode] using hguard),
    matchesAt_startCode 0xE0 hrest hlen]
  congr 1
  simp only [hcode, decide_true, Option.bind_eq_bind, Option.bind_some, if_true]
  congr 1
  funext p
  have hret : 0 ≤ p.1 := UInt32.zero_le
  simp only [hret, if_true]
  cases appendPayload srcdata s p.2 <;> rfl

theorem pass_skipped (hcode : IsSkipped rest) :
    parsingPsPass srcdata s =
      ((skipUnit srcdata s.nextPack s.leftlength).map fun p =>
        Pass.again ⟨p.2.nextPack, p.2.leftlength, s.outData, s.outlength⟩).getD
          (.leave .outOfBounds) := by
  rw [parsingPsPass, parsingPsStep, if_pos (by simpa [sizeofPackStartCode] using hguard),
    matchesAt_startCode 0xE0 hrest hlen, matchesAt_startCode 0xBB hrest hlen,
    matchesAt_startCode 0xBC hrest hlen]
  congr 1
  rcases hcode with hcode | hcode
  · have hE0 := startCode_ne hcode (show (0xBB : UInt8) ≠ 0xE0 by decide)
    simp only [hE0, hcode, decide_true, decide_false, Option.bind_eq_bind, Option.bind_some,
      Bool.false_eq_true, if_false, if_true, programShHead]
    cases skipUnit srcdata s.nextPack s.leftlength <;> rfl
  · have hE0 := startCode_ne hcode (show (0xBC : UInt8) ≠ 0xE0 by decide)
    have hBB := startCode_ne hcode (show (0xBC : UInt8) ≠ 0xBB by decide)
    simp only [hE0, hBB, hcode, decide_true, decide_false, Option.bind_eq_bind, Option.bind_some,
      Bool.false_eq_true, if_false, if_true, programStreamMap]
    cases skipUnit srcdata s.nextPack s.leftlength <;> rfl

theorem pass_other (hE0 : ¬ HasStartCode 0xE0 rest) (hskip : ¬ IsSkipped rest) :
    parsingPsPass srcdata s =
      .leave (.returned ⟨UInt32.ofInt s.outlength, s.outData, s.outlength⟩) := by
  have hBB : ¬ HasStartCode 0xBB rest := fun h => hskip (Or.inl h)
  have hBC : ¬ HasStartCode 0xBC rest := fun h => hskip (Or.inr h)
  rw [parsingPsPass, parsingPsStep, if_pos (by simpa [sizeofPackStartCode] using hguard),
    matchesAt_startCode 0xE0 hrest hlen, matchesAt_startCode 0xBB hrest hlen,
    matchesAt_startCode 0xBC hrest hlen]
  simp [hE0, hBB, hBC]

end Branches

private theorem bind_ne_some {α β : Type} {o : Option α} {f : α → Option β} {y : β}
    (h : ∀ a, f a ≠ some y) : o.bind f ≠ some y := by
  cases o with
  | none => simp
  | some a => exact h a

private theorem step_ne_error (srcdata : List UInt8) (s : DemuxState) (r : PsResult) :
    parsingPsStep srcdata s ≠ some (.leave (.error r)) := by
  have hret (x : UInt32) : 0 ≤ x := UInt32.zero_le
  rw [parsingPsStep]
  split
  · refine bind_ne_some fun video => ?_
    cases video
    · refine bind_ne_some fun systemHeader => ?_
      cases systemHeader
      · refine bind_ne_some fun streamMap => ?_
        cases streamMap
        · simp
        · exact bind_ne_some fun p => by simp
      · exact bind_ne_some fun p => by simp
    · refine bind_ne_some fun p => ?_
      simp only [hret, if_true]
      exact bind_ne_some fun out => by simp
  · simp

/-- The error path inside the loop is dead: `Pes` returns an unsigned value. -/
theorem pass_ne_error (srcdata : List UInt8) (s : DemuxState) (r : PsResult) :
    parsingPsPass srcdata s ≠ .leave (.error r) := by
  intro herror
  rw [parsingPsPass] at herror
  cases hs : parsingPsStep srcdata s with
  | none => simp [hs] at herror
  | some p =>
      rw [hs] at herror
      exact step_ne_error srcdata s r (hs.trans (congrArg some herror))

end GMProxy.TdPs
