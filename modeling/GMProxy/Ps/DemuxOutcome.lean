import GMProxy.Ps.Decompose

/-!
# Whole runs of the demultiplexer

The code in front of the loop puts it at the bytes behind the pack header. Together with the runs
over complete units this gives the end of `parsingPs` for every decomposition of its input.
-/

namespace GMProxy.TdPs

open WhileLoop CMemory

/-- What `parsingPs` can be called with: `length` is an `int`, and it is the size of the block. -/
structure Buffer where
  bytes : List UInt8
  fits : bytes.length < 2 ^ 31

/-- `parsingPs` on a whole block comes to the end `e`. -/
def Ends (srcdata : List UInt8) (e : PsEnd) : Prop :=
  ∃ fuel, parsingPs srcdata srcdata.length fuel = .leave e

variable {srcdata tail : List UInt8} {units : List PsUnit} {s : DemuxState} {e e' : PsEnd}

private theorem ends_of_entry_leave
    (h : (parsingPsEntry srcdata srcdata.length).getD (.leave .outOfBounds) = .leave e) :
    Ends srcdata e :=
  ⟨0, by rw [parsingPs, h]⟩

private theorem ends_iff_of_entry_again
    (h : parsingPsEntry srcdata srcdata.length = some (.again s)) :
    Ends srcdata e ↔ Leaves (parsingPsPass srcdata) s e := by
  simp only [Ends, parsingPs, h, Option.getD_some, Leaves]

theorem Ends.unique (h : Ends srcdata e) (h' : Ends srcdata e') : e = e' := by
  cases hentry : (parsingPsEntry srcdata srcdata.length).getD (.leave .outOfBounds) with
  | leave r =>
      obtain ⟨m, hm⟩ := h
      obtain ⟨n, hn⟩ := h'
      rw [parsingPs, hentry] at hm hn
      rw [Pass.leave.injEq] at hm hn
      rw [← hm, ← hn]
  | again s =>
      simp only [Ends, parsingPs, hentry] at h h'
      exact Leaves.unique h h'

theorem entry_short (h : srcdata.length < 4) :
    parsingPsEntry srcdata srcdata.length = none := by
  have hread : srcdata[3]? = none := List.getElem?_eq_none (by omega)
  simp [parsingPsEntry, hread]

theorem entry_otherId {b : UInt8} (h : srcdata[3]? = some b) (hb : b ≠ 0xBA) :
    parsingPsEntry srcdata srcdata.length =
      some (.leave (.returned ⟨UInt32.ofInt (-1), none, 0⟩)) := by
  simp [parsingPsEntry, h, hb]

theorem entry_shortHeader (h : srcdata[3]? = some 0xBA) (hlen : srcdata.length < 14) :
    parsingPsEntry srcdata srcdata.length = none := by
  have hread : srcdata[13]? = none := List.getElem?_eq_none (by omega)
  simp [parsingPsEntry, programStreamPackHeader, h, hread]

/-- The state in which the loop is entered. -/
def startState (srcdata : List UInt8) : DemuxState :=
  ⟨14 + packStuffing srcdata, srcdata.length - 14 - packStuffing srcdata, none, 0⟩

theorem packStuffing_lt (srcdata : List UInt8) : packStuffing srcdata < 8 := by
  have hand : (srcdata.getD 13 0 &&& 7).toNat ≤ 7 := by
    rw [UInt8.toNat_and]
    exact Nat.and_le_right
  exact Nat.lt_succ_of_le hand

theorem unitArea_length (srcdata : List UInt8) :
    (unitArea srcdata).length = srcdata.length - (14 + packStuffing srcdata) := by
  rw [unitArea, List.length_drop, sizeofProgramStreamPackHeader]

theorem entry_pack (hfits : srcdata.length < 2 ^ 31) (h : srcdata[3]? = some 0xBA)
    (hlen : 14 ≤ srcdata.length) :
    parsingPsEntry srcdata srcdata.length =
      if (unitArea srcdata).length < 4 then some (.leave (.returned (resultOf [])))
      else some (.again (startState srcdata)) := by
  have hstuffing := packStuffing_lt srcdata
  have hread : srcdata[13]? = some (srcdata.getD 13 0) := by
    simp [List.getD_eq_getElem?_getD, List.getElem?_eq_getElem (show 13 < srcdata.length by omega)]
  have hleft : toInt ((srcdata.length : Int) - (sizeofProgramStreamPackHeader : Nat) -
      ((srcdata.getD 13 0 &&& 7).toNat : Nat)) = srcdata.length - 14 - packStuffing srcdata := by
    change toInt ((srcdata.length : Int) - 14 - (packStuffing srcdata : Nat)) = _
    rw [toInt_of_mem (by omega) (by omega)]
  rw [parsingPsEntry, h]
  simp only [Option.bind_eq_bind, Option.bind_some, ne_eq, not_true_eq_false, if_false,
    programStreamPackHeader, Nat.zero_add, hread, hleft]
  by_cases hshort : (unitArea srcdata).length < 4
  · rw [if_pos hshort, if_pos (by rw [unitArea_length] at hshort; omega)]
    rfl
  · rw [unitArea_length] at hshort
    have hret : UInt32.ofInt ((srcdata.length : Int) - 14 - packStuffing srcdata) ≠ 0 := by
      intro hzero
      have hnat := congrArg UInt32.toNat hzero
      simp only [UInt32.ofInt, UInt32.toNat_ofNat', UInt32.toNat_zero] at hnat
      omega
    rw [unitArea_length, if_neg hshort, if_neg (by omega)]
    simp only [Option.pure_def, Option.bind_some, hret, if_false]
    rfl

theorem at_startState (hfits : srcdata.length < 2 ^ 31) (hlen : 4 ≤ (unitArea srcdata).length) :
    At srcdata (unitArea srcdata) [] (startState srcdata) := by
  have hsize := unitArea_length srcdata
  refine ⟨?_, rfl, rfl, fun _ => rfl, by omega, by decide⟩
  simp only [startState]
  omega

/-- Either the loop is entered at the unit area, or the area is too short to hold a start code and
`parsingPs` returns an empty frame. -/
theorem start_cases (hfits : srcdata.length < 2 ^ 31) (h : srcdata[3]? = some 0xBA)
    (hlen : 14 ≤ srcdata.length) :
    ((unitArea srcdata).length < 4 ∧
      parsingPsEntry srcdata srcdata.length = some (.leave (.returned (resultOf [])))) ∨
    (At srcdata (unitArea srcdata) [] (startState srcdata) ∧
      parsingPsEntry srcdata srcdata.length = some (.again (startState srcdata))) := by
  have hentry := entry_pack hfits h hlen
  by_cases hshort : (unitArea srcdata).length < 4
  · rw [if_pos hshort] at hentry
    exact Or.inl ⟨hshort, hentry⟩
  · rw [if_neg hshort] at hentry
    exact Or.inr ⟨at_startState hfits (by omega), hentry⟩

private theorem no_units_of_short (harea : unitArea srcdata = encodeUnits units ++ tail)
    (hshort : (unitArea srcdata).length < 4) : units = [] ∧ tail.length < 4 := by
  rw [harea, List.length_append] at hshort
  refine ⟨?_, by omega⟩
  cases units with
  | nil => rfl
  | cons u units =>
      rw [encodeUnits, List.flatMap_cons, List.length_append, u.encode_length] at hshort
      omega

section Pack

variable (hfits : srcdata.length < 2 ^ 31) (hid : srcdata[3]? = some 0xBA)
  (hlen : 14 ≤ srcdata.length) (harea : unitArea srcdata = encodeUnits units ++ tail)

include hfits hid hlen harea

/-- A run reaches the bytes behind the units, or there are no units and fewer than four bytes. -/
theorem reaches_tail :
    (units = [] ∧ tail.length < 4 ∧ Ends srcdata (.returned (resultOf []))) ∨
    ∃ t, Reaches (parsingPsPass srcdata) (startState srcdata) t ∧
      At srcdata tail (keepAll [] units) t ∧
      parsingPsEntry srcdata srcdata.length = some (.again (startState srcdata)) := by
  rcases start_cases hfits hid hlen with ⟨hshort, hentry⟩ | ⟨hat, hentry⟩
  · obtain ⟨hunits, htail⟩ := no_units_of_short harea hshort
    exact Or.inl ⟨hunits, htail, ends_of_entry_leave (by rw [hentry]; rfl)⟩
  · rw [harea] at hat
    obtain ⟨t, hreach, ht⟩ := run_units units tail hat
    exact Or.inr ⟨t, hreach, ht, hentry⟩

private theorem ends_of_tail (hfour : 4 ≤ tail.length)
    (h : ∀ t, At srcdata tail (keepAll [] units) t → Leaves (parsingPsPass srcdata) t e) :
    Ends srcdata e := by
  rcases reaches_tail hfits hid hlen harea with ⟨-, hshort, -⟩ | ⟨t, hreach, ht, hentry⟩
  · omega
  · exact (ends_iff_of_entry_again hentry).mpr (hreach.leaves_iff.mpr (h t ht))

theorem ends_of_endsPack (htail : EndsPack tail) :
    Ends srcdata (.returned (resultOf (keepAll [] units))) := by
  rcases reaches_tail hfits hid hlen harea with ⟨rfl, -, hend⟩ | ⟨t, hreach, ht, hentry⟩
  · exact hend
  · exact (ends_iff_of_entry_again hentry).mpr
      (hreach.leaves_iff.mpr (Leaves.of_leave (pass_endsPack ht htail)))

theorem ends_of_cutInSkipped (htail : CutInSkipped tail) : Ends srcdata .outOfBounds :=
  ends_of_tail hfits hid hlen harea htail.1.four_le fun _ ht => leaves_cutInSkipped ht htail

theorem ends_of_headerExceedsPacket (htail : HeaderExceedsPacket tail) :
    Ends srcdata .outOfBounds :=
  ends_of_tail hfits hid hlen harea htail.1.four_le fun _ ht =>
    Leaves.of_leave (pass_headerExceedsPacket ht htail)

theorem ends_of_copiesPastEnd (htail : CopiesPastEnd (keepAll [] units) tail) :
    Ends srcdata .outOfBounds :=
  ends_of_tail hfits hid hlen harea htail.1.1.four_le fun _ ht =>
    Leaves.of_leave (pass_copiesPastEnd ht htail)

theorem ends_of_cutInVideo (htail : CutInVideo tail) (hheader : ¬ HeaderExceedsPacket tail)
    (hcopy : ¬ CopiesPastEnd (keepAll [] units) tail) :
    Ends srcdata (.returned (resultOf (keepAll [] units))) :=
  ends_of_tail hfits hid hlen harea htail.1.four_le fun t ht => by
    obtain ⟨t', hpass, -, -, hleave⟩ := run_cutInVideo ht htail hheader hcopy
    exact (Reaches.single hpass).leaves_iff.mpr (Leaves.of_leave hleave)

theorem not_ends_of_cutInHeader (htail : CutInHeader tail) : ¬ Ends srcdata e := by
  have hfour : 4 ≤ tail.length :=
    htail.elim (fun h => h.1.four_le) (fun h => h.1.four_le)
  rcases reaches_tail hfits hid hlen harea with ⟨-, hshort, -⟩ | ⟨t, hreach, ht, hentry⟩
  · omega
  · intro hend
    have hleaves := hreach.leaves_iff.mp ((ends_iff_of_entry_again hentry).mp hend)
    exact not_terminates_of_fixed (pass_cutInHeader ht htail) ⟨e, hleaves⟩

end Pack

theorem ends_short (h : srcdata.length < 4) : Ends srcdata .outOfBounds :=
  ends_of_entry_leave (by rw [entry_short h]; rfl)

theorem ends_otherId {b : UInt8} (h : srcdata[3]? = some b) (hb : b ≠ 0xBA) :
    Ends srcdata (.returned ⟨UInt32.ofInt (-1), none, 0⟩) :=
  ends_of_entry_leave (by rw [entry_otherId h hb]; rfl)

theorem ends_shortHeader (h : srcdata[3]? = some 0xBA) (hlen : srcdata.length < 14) :
    Ends srcdata .outOfBounds :=
  ends_of_entry_leave (by rw [entry_shortHeader h hlen]; rfl)

/-- How a block fares before its unit area matters. -/
theorem header_cases (srcdata : List UInt8) :
    (srcdata.length < 4) ∨ (∃ b, srcdata[3]? = some b ∧ b ≠ 0xBA) ∨
      (srcdata[3]? = some 0xBA ∧ srcdata.length < 14) ∨
      (srcdata[3]? = some 0xBA ∧ 14 ≤ srcdata.length) := by
  by_cases hfour : 4 ≤ srcdata.length
  · obtain ⟨b, hb⟩ : ∃ b, srcdata[3]? = some b := ⟨_, List.getElem?_eq_getElem (by omega)⟩
    by_cases hid : b = 0xBA
    · subst b
      by_cases hlen : 14 ≤ srcdata.length
      · exact Or.inr (Or.inr (Or.inr ⟨hb, hlen⟩))
      · exact Or.inr (Or.inr (Or.inl ⟨hb, by omega⟩))
    · exact Or.inr (Or.inl ⟨b, hb, hid⟩)
  · exact Or.inl (by omega)

theorem payloads_cons (u : PsUnit) (units : List PsUnit) :
    payloads (u :: units) = u.payload ++ payloads units :=
  List.flatMap_cons ..

theorem keepAll_cons (acc : List UInt8) (u : PsUnit) (units : List PsUnit) :
    keepAll acc (u :: units) = keepAll (keep acc u.payload) units :=
  rfl

/-- Below the size limit every payload is kept. -/
theorem keepAll_eq_append {acc : List UInt8}
    (h : acc.length + (payloads units).length < h264FrameSizeMax) :
    keepAll acc units = acc ++ payloads units := by
  induction units generalizing acc with
  | nil => simp [keepAll, payloads]
  | cons u units ih =>
      rw [payloads_cons, List.length_append] at h
      have hkeep : keep acc u.payload = acc ++ u.payload := by
        rw [keep, if_pos (by omega)]
      rw [keepAll_cons, hkeep, ih (by rw [List.length_append]; omega), payloads_cons,
        List.append_assoc]

private theorem keepAll_ne_nil {acc : List UInt8} (h : acc ≠ []) : keepAll acc units ≠ [] := by
  induction units generalizing acc with
  | nil => exact h
  | cons u units ih =>
      rw [keepAll_cons]
      apply ih
      unfold keep
      split
      · simp [h]
      · exact h

theorem PsUnit.payload_length_lt (u : PsUnit) : u.payload.length < 2 ^ 16 := by
  cases u with
  | systemHeader body hlen => simp [payload]
  | streamMap body hlen => simp [payload]
  | video f1 f2 header payload hheader hlen =>
      simp only [PsUnit.payload]
      omega

/-- The first payload always fits, so nothing is kept only if nothing was sent. -/
theorem keepAll_eq_nil_iff : keepAll [] units = [] ↔ payloads units = [] := by
  induction units with
  | nil => simp [keepAll, payloads]
  | cons u units ih =>
      have hlt := u.payload_length_lt
      have hkeep : keep [] u.payload = u.payload := by
        rw [keep, if_pos (by simp only [List.length_nil, h264FrameSizeMax]; omega), List.nil_append]
      rw [keepAll_cons, payloads_cons, hkeep, List.append_eq_nil_iff]
      by_cases hu : u.payload = []
      · rw [hu, ih]
        simp
      · simp [hu, keepAll_ne_nil hu]

theorem resultOf_eq_empty_iff (frame : List UInt8) : resultOf frame = ⟨0, none, 0⟩ ↔ frame = [] := by
  constructor
  · intro h
    have hlen := congrArg PsResult.outlength h
    simp only [resultOf] at hlen
    exact List.length_eq_zero_iff.mp (by omega)
  · intro heq
    subst heq
    rfl

theorem resultOf_outData (frame : List UInt8) : (resultOf frame).outData.getD [] = frame := by
  by_cases hempty : frame = []
  · simp [resultOf, blockOf, hempty]
  · simp [resultOf, blockOf, hempty]

end GMProxy.TdPs
