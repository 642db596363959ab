import GMProxy.Ps.DemuxOutcome

/-!
# Termination of the demultiplexer

Every pass of the loop either leaves it or moves the cursor, except in front of a unit that the end
of the buffer cuts off in its fixed part, and of a system header or stream map that declares more
bytes than there are. With such a unit behind the complete ones the cursor stands still.
-/

namespace GMProxy.TdPs

open WhileLoop CMemory

variable {srcdata rest tail acc : List UInt8} {units : List PsUnit} {s t : DemuxState}

/-- The bytes from the cursor to the end of the buffer. -/
def unread (srcdata : List UInt8) (s : DemuxState) : Nat := srcdata.length - s.nextPack

/-- The pass leaves the loop, at once or at the next test of its guard, or it consumes bytes. -/
def LeavesOrConsumes (srcdata : List UInt8) (s : DemuxState) : Pass DemuxState PsEnd → Prop
  | .leave _ => True
  | .again t => toUnsigned t.leftlength < sizeofPackStartCode ∨ unread srcdata t < unread srcdata s

/-- Every pass leaves or consumes, and the loop comes to an end. -/
def LoopTerminates (srcdata : List UInt8) : Prop :=
  (∀ s, parsingPsEntry srcdata srcdata.length = some (.again s) →
    EveryPass (parsingPsPass srcdata) (LeavesOrConsumes srcdata) s) ∧
  ∃ e, Ends srcdata e

private theorem unread_lt (hmove : s.nextPack < t.nextPack) (hin : s.nextPack < srcdata.length) :
    unread srcdata t < unread srcdata s := by
  simp only [unread]
  omega

private theorem At.cursor_lt (h : At srcdata rest acc s) (hlen : 4 ≤ rest.length) :
    s.nextPack < srcdata.length := by
  have hdrop := congrArg List.length (h.cursor hlen)
  rw [List.length_drop] at hdrop
  omega

private theorem consumes_unit (u : PsUnit) (hu : At srcdata (u.encode ++ rest) acc s)
    (hat : At srcdata rest (keep acc u.payload) t)
    (hmove : 4 ≤ rest.length → s.nextPack < t.nextPack) :
    LeavesOrConsumes srcdata s (.again t) := by
  by_cases hfour : 4 ≤ rest.length
  · apply Or.inr
    apply unread_lt (hmove hfour) (hu.cursor_lt _)
    rw [List.length_append]
    omega
  · exact Or.inl (by rw [hat.toUnsigned, sizeofPackStartCode]; omega)

private theorem everyPass_tail (h : At srcdata tail acc s)
    (hcases : EndsPack tail ∨ HeaderExceedsPacket tail ∨ CutInVideo tail) :
    EveryPass (parsingPsPass srcdata) (LeavesOrConsumes srcdata) s := by
  by_cases hheader : HeaderExceedsPacket tail
  · exact (everyPass_of_leave (pass_headerExceedsPacket h hheader)).mpr trivial
  · rcases hcases with hend | hexceeds | hcut
    · exact (everyPass_of_leave (pass_endsPack h hend)).mpr trivial
    · exact absurd hexceeds hheader
    · by_cases hcopy : CopiesPastEnd acc tail
      · exact (everyPass_of_leave (pass_copiesPastEnd h hcopy)).mpr trivial
      · obtain ⟨t, hpass, hnext, hin, hleave⟩ := run_cutInVideo h hcut hheader hcopy
        refine (everyPass_of_again hpass).mpr ⟨Or.inr ?_, (everyPass_of_leave hleave).mpr trivial⟩
        exact unread_lt (by omega) (by omega)

private theorem not_everyPass_tail (h : At srcdata tail acc s)
    (hcases : CutInHeader tail ∨ CutInSkipped tail) :
    ¬ EveryPass (parsingPsPass srcdata) (LeavesOrConsumes srcdata) s := by
  intro hall
  have hpass := hall s (.refl s)
  rcases hcases with hcut | hcut
  · have hfour : 4 ≤ tail.length := hcut.elim (fun h => h.1.four_le) (fun h => h.1.four_le)
    rw [pass_cutInHeader h hcut] at hpass
    rcases hpass with hguard | hunread
    · rw [h.toUnsigned, sizeofPackStartCode] at hguard
      omega
    · exact Nat.lt_irrefl _ hunread
  · rw [pass_cutInSkipped h hcut] at hpass
    have hdeclared := declaredLength_lt tail
    obtain ⟨hcode, hsix, hlt⟩ := hcut
    rcases hpass with hguard | hunread
    · have hneg := toUnsigned_of_neg (z := (tail.length : Int) - declaredLength tail - 6)
        (by omega) (by omega)
      simp only [sizeofPackStartCode] at hguard
      omega
    · exact Nat.lt_irrefl _ hunread

private theorem ends_of_tail_cases (hfits : srcdata.length < 2 ^ 31)
    (hid : srcdata[3]? = some 0xBA) (hlen : 14 ≤ srcdata.length)
    (harea : unitArea srcdata = encodeUnits units ++ tail)
    (hcases : EndsPack tail ∨ HeaderExceedsPacket tail ∨ CutInVideo tail) :
    ∃ e, Ends srcdata e := by
  by_cases hheader : HeaderExceedsPacket tail
  · exact ⟨_, ends_of_headerExceedsPacket hfits hid hlen harea hheader⟩
  · rcases hcases with hend | hexceeds | hcut
    · exact ⟨_, ends_of_endsPack hfits hid hlen harea hend⟩
    · exact absurd hexceeds hheader
    · by_cases hcopy : CopiesPastEnd (keepAll [] units) tail
      · exact ⟨_, ends_of_copiesPastEnd hfits hid hlen harea hcopy⟩
      · exact ⟨_, ends_of_cutInVideo hfits hid hlen harea hcut hheader hcopy⟩

private theorem no_startCode_of_short (hlen : srcdata.length < 14)
    (harea : unitArea srcdata = encodeUnits units ++ tail) : tail.length < 4 := by
  have hsize := unitArea_length srcdata
  rw [harea, List.length_append] at hsize
  omega

/-- The loop of `parsingPs` terminates exactly on the buffers in which no chain of complete units is
followed by a unit cut off in its fixed part or by a system header or stream map that declares more
bytes than there are. -/
theorem parsingPs_terminates_iff (b : Buffer) :
    LoopTerminates b.bytes ↔
      (b.bytes[3]? = some 0xBA → ∀ units tail, unitArea b.bytes = encodeUnits units ++ tail →
        ¬ CutInHeader tail ∧ ¬ CutInSkipped tail) := by
  constructor
  · rintro ⟨hall, _⟩ hid units tail harea
    rw [← not_or]
    intro hcases
    have hfour : 4 ≤ tail.length := by
      rcases hcases with hcut | hcut
      · exact hcut.elim (fun h => h.1.four_le) (fun h => h.1.four_le)
      · exact hcut.1.four_le
    by_cases hlen : 14 ≤ b.bytes.length
    · rcases reaches_tail b.fits hid hlen harea with ⟨-, hshort, -⟩ | ⟨t, hreach, ht, hentry⟩
      · omega
      · exact not_everyPass_tail ht hcases fun u hu => hall _ hentry u (hreach.trans hu)
    · have hshort := no_startCode_of_short (by omega) harea
      omega
  · intro hcond
    rcases header_cases b.bytes with hshort | ⟨_, hread, hother⟩ | ⟨hid, hlen⟩ | ⟨hid, hlen⟩
    · refine ⟨fun s hs => ?_, _, ends_short hshort⟩
      rw [entry_short hshort] at hs
      cases hs
    · refine ⟨fun s hs => ?_, _, ends_otherId hread hother⟩
      rw [entry_otherId hread hother] at hs
      cases hs
    · refine ⟨fun s hs => ?_, _, ends_shortHeader hid hlen⟩
      rw [entry_shortHeader hid hlen] at hs
      cases hs
    · obtain ⟨units, tail, harea, hmax⟩ := exists_units (unitArea b.bytes)
      obtain ⟨hheader, hskipped⟩ := hcond hid units tail harea
      have hcases : EndsPack tail ∨ HeaderExceedsPacket tail ∨ CutInVideo tail := by
        rcases tail_cases hmax with h | h | h | h | h
        · exact Or.inl h
        · exact absurd h hheader
        · exact absurd h hskipped
        · exact Or.inr (Or.inl h)
        · exact Or.inr (Or.inr h)
      refine ⟨fun s hs => ?_, ends_of_tail_cases b.fits hid hlen harea hcases⟩
      rcases start_cases b.fits hid hlen with ⟨-, hentry⟩ | ⟨hat, hentry⟩
      · rw [hentry] at hs
        cases hs
      · rw [hentry] at hs
        cases hs
        rw [harea] at hat
        exact everyPass_units (fun u rest acc s t hu ht hmove _ => consumes_unit u hu ht hmove) hat
          fun t ht => everyPass_tail ht hcases

/-- A pack header and the start code of a video packet, with nothing behind it. -/
def bareStartCode : List UInt8 :=
  [0x00, 0x00, 0x01, 0xBA, 0x44, 0x00, 0x04, 0x00, 0x04, 0x01, 0x00, 0x03, 0xFF, 0xF8,
    0x00, 0x00, 0x01, 0xE0]

/-- On the bare start code the loop repeats its first pass for ever. -/
theorem bareStartCode_diverges :
    parsingPsEntry bareStartCode bareStartCode.length = some (.again ⟨14, 4, none, 0⟩) ∧
      parsingPsPass bareStartCode ⟨14, 4, none, 0⟩ = .again ⟨14, 4, none, 0⟩ ∧
      ¬ LoopTerminates bareStartCode := by
  have hentry : parsingPsEntry bareStartCode bareStartCode.length =
      some (.again ⟨14, 4, none, 0⟩) := by decide
  have hpass : parsingPsPass bareStartCode ⟨14, 4, none, 0⟩ = .again ⟨14, 4, none, 0⟩ := by decide
  refine ⟨hentry, hpass, fun hterm => ?_⟩
  rcases hterm.1 _ hentry _ (.refl _) with hguard | hunread
  · revert hguard
    decide
  · revert hunread
    decide

end GMProxy.TdPs
