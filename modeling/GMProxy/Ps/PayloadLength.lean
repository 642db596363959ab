import GMProxy.Ps.DemuxResult

/-!
# The payload length of a video packet

`Pes` subtracts the header length of a packet from its declared length. What the loop of `parsingPs`
does with a difference below zero, and what it returns otherwise.
-/

namespace GMProxy.TdPs

open WhileLoop CMemory

variable {srcdata rest tail acc : List UInt8} {units : List PsUnit} {s t : DemuxState}

/-- A video packet that lies in the buffer as a whole. -/
def CompleteVideo (tail : List UInt8) : Prop :=
  HasStartCode 0xE0 tail ∧ 6 + declaredLength tail ≤ tail.length

/-- A pass uses no payload length below zero for a complete video packet, and it does not decrease
the collected length. -/
def PayloadOk (srcdata : List UInt8) (s : DemuxState) (pass : Pass DemuxState PsEnd) : Prop :=
  (sizeofPackStartCode ≤ toUnsigned s.leftlength → CompleteVideo (srcdata.drop s.nextPack) →
    ∀ ret u, pes srcdata s.nextPack s.leftlength = some (ret, u) → 0 ≤ u.payloadDataLen) ∧
  ∀ t, pass = .again t → s.outlength ≤ t.outlength

/-- What `parsingPs` returns: the collected length is that of the block, and at most that of the
input. -/
def ReturnOk (srcdata : List UInt8) (r : PsResult) : Prop :=
  r.outlength = (r.outData.getD []).length ∧ r.outlength ≤ srcdata.length

/-- A run that ends does so with a result in order; one that reads or copies from behind the buffer has
none. -/
def PayloadLengthsOk (srcdata : List UInt8) : Prop :=
  (∀ s, parsingPsEntry srcdata srcdata.length = some (.again s) →
    EveryPass (parsingPsPass srcdata) (PayloadOk srcdata) s) ∧
  ∀ e, Ends srcdata e → ∃ r, e = .returned r ∧ ReturnOk srcdata r

/-- A length below zero comes with a null pointer, and the copy from it does not end. -/
theorem pes_negative {pack : Nat} {length : Int} {ret : UInt32} {u : UnitOut}
    (h : pes srcdata pack length = some (ret, u)) (hneg : u.payloadDataLen < 0) :
    u.payloadData = none ∧ -2 ^ 32 ≤ u.payloadDataLen := by
  unfold pes at h
  split at h
  · simp only [Option.some.injEq, Prod.mk.injEq] at h
    rw [← h.2] at hneg
    exact absurd hneg (Int.lt_irrefl 0)
  · simp only [Option.bind_eq_bind, Option.bind_eq_some_iff] at h
    obtain ⟨pseLength, -, stuffing, -, hrest⟩ := h
    have hbyte := stuffing.toNat_lt
    split at hrest
    · simp only [Option.pure_def, Option.some.injEq, Prod.mk.injEq] at hrest
      rw [← hrest.2] at hneg ⊢
      simp only at hneg ⊢
      exact ⟨if_neg (by omega), by omega⟩
    · simp only [Option.pure_def, Option.some.injEq, Prod.mk.injEq] at hrest
      rw [← hrest.2] at hneg ⊢
      simp only at hneg ⊢
      exact ⟨if_neg (by omega), by omega⟩

theorem appendPayload_mono {u : UnitOut} {out : Option (List UInt8) × Int}
    (hnull : u.payloadDataLen < 0 → u.payloadData = none ∧ -2 ^ 32 ≤ u.payloadDataLen)
    (h : appendPayload srcdata s u = some out) : s.outlength ≤ out.2 := by
  unfold appendPayload at h
  split at h
  · split at h
    · simp only [Option.bind_eq_bind, Option.bind_eq_some_iff, Option.pure_def,
        Option.some.injEq] at h
      obtain ⟨payload, hcopy, rfl⟩ := h
      by_cases hneg : u.payloadDataLen < 0
      · obtain ⟨hdata, hlow⟩ := hnull hneg
        have hcount := toSize_of_neg hlow hneg
        rw [hdata, memcpy_null (by omega)] at hcopy
        cases hcopy
      · simp only
        omega
    · obtain rfl := Option.some.inj h
      exact Int.le_refl _
  · obtain rfl := Option.some.inj h
    exact Int.le_refl _

theorem pass_mono (h : parsingPsPass srcdata s = .again t) : s.outlength ≤ t.outlength := by
  have hstep : parsingPsStep srcdata s = some (.again t) := by
    rw [parsingPsPass] at h
    cases hs : parsingPsStep srcdata s with
    | none =>
        rw [hs] at h
        cases h
    | some pass =>
        rw [hs, Option.getD_some] at h
        rw [h]
  have hret (x : UInt32) : 0 ≤ x := UInt32.zero_le
  unfold parsingPsStep at hstep
  simp only [Option.bind_eq_bind, Option.pure_def, hret, if_true] at hstep
  split at hstep
  · obtain ⟨video, -, hstep⟩ := Option.bind_eq_some_iff.mp hstep
    split at hstep
    · obtain ⟨p, hpes, hstep⟩ := Option.bind_eq_some_iff.mp hstep
      obtain ⟨out, happend, hstep⟩ := Option.bind_eq_some_iff.mp hstep
      obtain rfl := Pass.again.inj (Option.some.inj hstep)
      exact appendPayload_mono (pes_negative hpes) happend
    · obtain ⟨systemHeader, -, hstep⟩ := Option.bind_eq_some_iff.mp hstep
      split at hstep
      · obtain ⟨p, -, hstep⟩ := Option.bind_eq_some_iff.mp hstep
        obtain rfl := Pass.again.inj (Option.some.inj hstep)
        exact Int.le_refl _
      · obtain ⟨streamMap, -, hstep⟩ := Option.bind_eq_some_iff.mp hstep
        split at hstep
        · obtain ⟨p, -, hstep⟩ := Option.bind_eq_some_iff.mp hstep
          obtain rfl := Pass.again.inj (Option.some.inj hstep)
          exact Int.le_refl _
        · cases hstep
  · cases hstep

theorem guard_of_again (h : parsingPsPass srcdata s = .again t) : 4 ≤ toUnsigned s.leftlength := by
  by_contra hguard
  rw [parsingPsPass, parsingPsStep, if_neg (by simpa [sizeofPackStartCode] using hguard)] at h
  cases h

/-- The length that `Pes` gives for the packet at the cursor, if it is long enough to have one. -/
theorem pes_payloadDataLen {ret : UInt32} {u : UnitOut} (hrest : srcdata.drop s.nextPack = rest)
    (h : pes srcdata s.nextPack s.leftlength = some (ret, u)) :
    u.payloadDataLen = 0 ∨ (9 ≤ rest.length ∧
      u.payloadDataLen = (declaredLength rest : Int) - 3 - headerDataLength rest) := by
  by_cases hguard : 9 ≤ toUnsigned s.leftlength
  · by_cases hnine : 9 ≤ rest.length
    · obtain ⟨ret', u', hpes, hrange, -, -⟩ := pes_drop hrest hnine hguard
      rw [hpes, Option.some.injEq, Prod.mk.injEq] at h
      rw [← h.2]
      exact Or.inr ⟨hnine, (Prod.mk.inj hrange).2⟩
    · have hread : srcdata[s.nextPack + 8]? = none := by
        rw [← List.getElem?_drop, hrest]
        exact List.getElem?_eq_none (by omega)
      simp [pes, hread, Nat.not_lt.mpr hguard, sizeofProgramStreamE] at h
  · rw [pes_short (by omega), Option.some.injEq, Prod.mk.injEq] at h
    rw [← h.2]
    exact Or.inl rfl

/-- The pass is in order unless a complete video packet with too long a header is at its cursor. -/
theorem payloadOk_of_cursor (hrest : srcdata.drop s.nextPack = rest)
    (hheader : ¬ (CompleteVideo rest ∧ HeaderExceedsPacket rest)) :
    PayloadOk srcdata s (parsingPsPass srcdata s) := by
  constructor
  · intro _ hvideo ret u hpes
    rw [hrest] at hvideo
    rcases pes_payloadDataLen hrest hpes with hzero | ⟨hnine, hlen⟩
    · omega
    · by_contra hneg
      exact hheader ⟨hvideo, hvideo.1, hnine, by omega⟩
  · intro t ht
    exact pass_mono ht

theorem At.payloadOk (h : At srcdata rest acc s)
    (hheader : ¬ (CompleteVideo rest ∧ HeaderExceedsPacket rest)) :
    PayloadOk srcdata s (parsingPsPass srcdata s) := by
  by_cases hfour : 4 ≤ rest.length
  · exact payloadOk_of_cursor (h.cursor hfour) hheader
  · constructor
    · intro hguard
      rw [h.toUnsigned] at hguard
      exact absurd hguard hfour
    · intro t ht
      exact pass_mono ht

theorem IsSkipped.not_video (h : IsSkipped rest) : ¬ HasStartCode 0xE0 rest :=
  h.elim (fun hcode => startCode_ne hcode (by decide)) fun hcode => startCode_ne hcode (by decide)

theorem PsUnit.not_headerExceedsPacket (u : PsUnit) (rest : List UInt8) :
    ¬ HeaderExceedsPacket (u.encode ++ rest) := by
  intro hexceeds
  have hcode := u.hasStartCode_encode rest
  obtain ⟨hvideo, -, hlen⟩ := hexceeds
  rw [u.declaredLength_encode] at hlen
  cases u with
  | systemHeader body hbody => exact IsSkipped.not_video (Or.inl hcode) hvideo
  | streamMap body hbody => exact IsSkipped.not_video (Or.inr hcode) hvideo
  | video flags1 flags2 header payload hheader hbody =>
      simp [headerDataLength, PsUnit.encode_eq, PsUnit.body] at hlen
      omega

theorem everyPass_cutInSkipped (h : At srcdata tail acc s) (htail : CutInSkipped tail) :
    EveryPass (parsingPsPass srcdata) (PayloadOk srcdata) s := by
  have hnone : ¬ HasStartCode 0xE0 ([] : List UInt8) := by decide
  obtain ⟨hcode, hsix, hcut⟩ := htail
  refine everyPass_of_invariant
    (I := fun s => srcdata.drop s.nextPack = tail ∨ srcdata.length ≤ s.nextPack) ?_ ?_ ?_
  · intro s hs
    cases hs with
    | inl hrest => exact payloadOk_of_cursor hrest fun hvideo => hcode.not_video hvideo.1.1
    | inr hbeyond =>
        exact payloadOk_of_cursor (List.drop_eq_nil_of_le hbeyond) fun hvideo => hnone hvideo.1.1
  · intro s t hs hpass
    have hguard := guard_of_again hpass
    cases hs with
    | inl hrest =>
        rw [pass_skipped hguard hrest hcode.four_le hcode] at hpass
        by_cases hlong : 6 ≤ toUnsigned s.leftlength
        · obtain ⟨ret, u, hskip, -, hnext⟩ := skipUnit_drop hrest hsix hlong
          rw [hskip] at hpass
          obtain rfl := Pass.again.inj hpass
          have hsize := congrArg List.length hrest
          rw [List.length_drop] at hsize
          by_cases hstay : u.leftlength ≤ 0
          · rw [if_pos hstay] at hnext
            exact Or.inl (by simpa only [hnext] using hrest)
          -- the declared length leads behind the buffer
          · rw [if_neg hstay] at hnext
            apply Or.inr
            simp only [hnext]
            omega
        · rw [skipUnit_short (by omega)] at hpass
          obtain rfl := Pass.again.inj hpass
          exact Or.inl hrest
    | inr hbeyond =>
        rw [pass_beyond hguard hbeyond] at hpass
        cases hpass
  · exact Or.inl (h.cursor hcode.four_le)

/-- Behind the complete units every pass is in order unless the tail is a complete video packet whose
header is longer than the packet. -/
theorem everyPass_payloadOk (h : At srcdata tail acc s)
    (hmax : ¬ ∃ u rest, tail = PsUnit.encode u ++ rest)
    (hheader : ¬ (CompleteVideo tail ∧ HeaderExceedsPacket tail)) :
    EveryPass (parsingPsPass srcdata) (PayloadOk srcdata) s := by
  have hok := h.payloadOk hheader
  by_cases hexceeds : HeaderExceedsPacket tail
  · have hpass := pass_headerExceedsPacket h hexceeds
    rw [everyPass_of_leave hpass, ← hpass]
    exact hok
  · rcases tail_cases hmax with hend | hcut | hskipped | hlong | hvideo
    · have hpass := pass_endsPack h hend
      rw [everyPass_of_leave hpass, ← hpass]
      exact hok
    · have hpass := pass_cutInHeader h hcut
      refine everyPass_of_invariant (I := fun t => t = s) ?_ ?_ rfl
      · intro t ht
        rw [ht]
        exact hok
      · intro t u ht hagain
        rw [ht, hpass] at hagain
        exact (Pass.again.inj hagain).symm
    · exact everyPass_cutInSkipped h hskipped
    · exact absurd hlong hexceeds
    · by_cases hcopy : CopiesPastEnd acc tail
      · have hpass := pass_copiesPastEnd h hcopy
        rw [everyPass_of_leave hpass, ← hpass]
        exact hok
      · obtain ⟨t, hpass, hnext, -, hleave⟩ := run_cutInVideo h hvideo hexceeds hcopy
        have hrest : srcdata.drop t.nextPack = tail.drop 4 := by
          rw [hnext, ← List.drop_drop, h.cursor hvideo.1.four_le]
        rw [everyPass_of_again hpass, everyPass_of_leave hleave, ← hpass, ← hleave]
        exact ⟨hok, payloadOk_of_cursor hrest fun hcode => hvideo.no_startCode _ hcode.1.1⟩

theorem PsUnit.payload_length_le (u : PsUnit) : u.payload.length ≤ u.encode.length := by
  rw [u.encode_length]
  cases u with
  | systemHeader body hlen => exact Nat.zero_le _
  | streamMap body hlen => exact Nat.zero_le _
  | video flags1 flags2 header payload hheader hlen =>
      simp only [PsUnit.payload, PsUnit.body, List.length_append]
      omega

theorem keepAll_length_le (acc : List UInt8) (units : List PsUnit) :
    (keepAll acc units).length ≤ acc.length + (encodeUnits units).length := by
  induction units generalizing acc with
  | nil => exact Nat.le_add_right ..
  | cons u units ih =>
      have hkeep : (keep acc u.payload).length ≤ acc.length + u.payload.length := by
        unfold keep
        split
        · exact Nat.le_of_eq List.length_append
        · exact Nat.le_add_right ..
      have hunit := u.payload_length_le
      have hunits := ih (keep acc u.payload)
      rw [keepAll_cons, encodeUnits, List.flatMap_cons, List.length_append, ← encodeUnits]
      omega

theorem returnOk_resultOf {frame : List UInt8} (h : frame.length ≤ srcdata.length) :
    ReturnOk srcdata (resultOf frame) := by
  constructor
  · simp only [resultOf, blockOf]
    split
    · next hnil => rw [hnil]; rfl
    · rfl
  · simp only [resultOf]
    omega

/-- Whatever the units, a block that is returned holds as many bytes as are reported. -/
theorem returnOk_of_ends (b : Buffer) {r : PsResult} (h : Ends b.bytes (.returned r)) :
    ReturnOk b.bytes r := by
  rcases header_cases b.bytes with hshort | ⟨_, hread, hother⟩ | ⟨hid, hlen⟩ | ⟨hid, hlen⟩
  · cases h.unique (ends_short hshort)
  · obtain rfl := PsEnd.returned.inj (h.unique (ends_otherId hread hother))
    exact ⟨rfl, Int.natCast_nonneg _⟩
  · cases h.unique (ends_shortHeader hid hlen)
  · obtain ⟨units, tail, harea, hmax⟩ := exists_units (unitArea b.bytes)
    have hframe : (keepAll [] units).length ≤ b.bytes.length := by
      have hkept := keepAll_length_le [] units
      have hsize := congrArg List.length harea
      rw [unitArea_length, List.length_append] at hsize
      simp only [List.length_nil] at hkept
      omega
    have hresult : ∀ e, Ends b.bytes e →
        e = .outOfBounds ∨ e = .returned (resultOf (keepAll [] units)) → ReturnOk b.bytes r := by
      intro e he hcases
      obtain rfl := h.unique he
      cases hcases with
      | inl hout => cases hout
      | inr hret =>
          rw [PsEnd.returned.inj hret]
          exact returnOk_resultOf hframe
    by_cases hexceeds : HeaderExceedsPacket tail
    · exact hresult _ (ends_of_headerExceedsPacket b.fits hid hlen harea hexceeds) (Or.inl rfl)
    · rcases tail_cases hmax with hend | hcut | hskipped | hlong | hvideo
      · exact hresult _ (ends_of_endsPack b.fits hid hlen harea hend) (Or.inr rfl)
      · exact absurd h (not_ends_of_cutInHeader b.fits hid hlen harea hcut)
      · exact hresult _ (ends_of_cutInSkipped b.fits hid hlen harea hskipped) (Or.inl rfl)
      · exact absurd hlong hexceeds
      · by_cases hcopy : CopiesPastEnd (keepAll [] units) tail
        · exact hresult _ (ends_of_copiesPastEnd b.fits hid hlen harea hcopy) (Or.inl rfl)
        · exact hresult _ (ends_of_cutInVideo b.fits hid hlen harea hvideo hexceeds hcopy)
            (Or.inr rfl)

private theorem passes_ok (b : Buffer)
    (hcond : b.bytes[3]? = some 0xBA → ∀ units tail, unitArea b.bytes = encodeUnits units ++ tail →
      ¬ (CompleteVideo tail ∧ HeaderExceedsPacket tail))
    (hs : parsingPsEntry b.bytes b.bytes.length = some (.again s)) :
    EveryPass (parsingPsPass b.bytes) (PayloadOk b.bytes) s := by
  rcases header_cases b.bytes with hshort | ⟨_, hread, hother⟩ | ⟨hid, hlen⟩ | ⟨hid, hlen⟩
  · rw [entry_short hshort] at hs
    cases hs
  · rw [entry_otherId hread hother] at hs
    cases hs
  · rw [entry_shortHeader hid hlen] at hs
    cases hs
  · obtain ⟨units, tail, harea, hmax⟩ := exists_units (unitArea b.bytes)
    rcases start_cases b.fits hid hlen with ⟨-, hentry⟩ | ⟨hat, hentry⟩
    · rw [hentry] at hs
      cases hs
    · rw [hentry] at hs
      cases hs
      rw [harea] at hat
      refine everyPass_units ?_ hat ?_
      · intro u rest acc s t hu _ _ hpass
        rw [← hpass]
        exact hu.payloadOk fun hbad => u.not_headerExceedsPacket rest hbad.2
      · intro t ht
        exact everyPass_payloadOk ht hmax (hcond hid units tail harea)

/-- The payload lengths are in order exactly on the buffers that have the four bytes of a start code
and, if they are packs, all of the pack header, and in which no chain of complete units is followed by
a system header or stream map that declares more bytes than there are, by a video packet whose header
is longer than itself, or by a cut-off video packet whose payload passes the size limit. -/
theorem payloadLengthsOk_iff (b : Buffer) :
    PayloadLengthsOk b.bytes ↔
      4 ≤ b.bytes.length ∧ (b.bytes[3]? = some 0xBA → 14 ≤ b.bytes.length ∧
        ∀ units tail, unitArea b.bytes = encodeUnits units ++ tail →
          ¬ Overruns (keepAll [] units) tail) := by
  rw [← readsInBounds_buffer, readsInBounds_iff]
  constructor
  · intro hok hbad
    obtain ⟨r, hr, -⟩ := hok.2 _ hbad
    cases hr
  · intro hsafe
    have hcond := (readsInBounds_buffer b).mp (readsInBounds_iff.mpr hsafe)
    constructor
    · intro s hs
      apply passes_ok b ?_ hs
      intro hid units tail harea hbad
      exact (hcond.2 hid).2 units tail harea (Or.inr (Or.inl hbad.2))
    · intro e he
      cases e with
      | returned r => exact ⟨r, rfl, returnOk_of_ends b he⟩
      | error r => exact absurd he (not_ends_error b r)
      | outOfBounds => exact absurd he hsafe

/-- A pack header and a video packet of nine bytes whose header would take 255. -/
def longHeaderPacket : List UInt8 :=
  [0x00, 0x00, 0x01, 0xBA, 0x44, 0x00, 0x04, 0x00, 0x04, 0x01, 0x00, 0x03, 0xFF, 0xF8,
    0x00, 0x00, 0x01, 0xE0, 0x00, 0x03, 0x80, 0x80, 0xFF]

/-- The payload length of that packet is -255. The truncated video packet has a payload that is copied
from behind the buffer, with all the bytes that it declares. -/
theorem longHeaderPacket_not_ok :
    ¬ PayloadLengthsOk longHeaderPacket ∧ ¬ PayloadLengthsOk truncatedVideo := by
  constructor
  · intro hok
    have hentry : parsingPsEntry longHeaderPacket longHeaderPacket.length =
        some (.again ⟨14, 9, none, 0⟩) := by decide
    have hpass := hok.1 _ hentry _ (.refl _)
    have hpes : pes longHeaderPacket 14 9 = some (0, ⟨23, 0, none, -255⟩) := by decide
    have hlow := hpass.1 (by decide) ⟨by decide, by decide⟩ _ _ hpes
    exact absurd hlow (by decide)
  · intro hok
    obtain ⟨r, hr, -⟩ := hok.2 .outOfBounds ⟨1, by decide⟩
    cases hr

end GMProxy.TdPs
