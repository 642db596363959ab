import Mathlib.Data.List.Induction
import GMProxy.Ps.DemuxResult

/-!
# Frames above the size limit

`parsingPs` tests the size limit for each video packet and goes on behind a packet that it leaves
out, so a smaller packet further back still finds room.
-/

namespace GMProxy.TdPs

variable {units front behind : List PsUnit} {u : PsUnit} {acc : List UInt8}

theorem keepAll_append (acc : List UInt8) (front behind : List PsUnit) :
    keepAll acc (front ++ behind) = keepAll (keepAll acc front) behind := by
  rw [keepAll, List.map_append, List.foldl_append]
  rfl

theorem payloads_append (front behind : List PsUnit) :
    payloads (front ++ behind) = payloads front ++ payloads behind := List.flatMap_append

theorem keepAll_length_lt (h : acc.length < h264FrameSizeMax) (units : List PsUnit) :
    (keepAll acc units).length < h264FrameSizeMax := by
  induction units generalizing acc with
  | nil => exact h
  | cons u units ih => exact ih (keep_length_lt h)

theorem le_keep (acc payload : List UInt8) : acc <+: keep acc payload := by
  unfold keep
  split
  · exact List.prefix_append acc payload
  · exact List.prefix_rfl

theorem le_keepAll (acc : List UInt8) (units : List PsUnit) : acc <+: keepAll acc units := by
  induction units generalizing acc with
  | nil => exact List.prefix_rfl
  | cons u units ih => exact (le_keep acc u.payload).trans (ih _)

theorem keep_rejected {payload : List UInt8} (h : h264FrameSizeMax ≤ payload.length + acc.length) :
    keep acc payload = acc := if_neg (Nat.not_lt.mpr h)

/-- Nothing is kept of `units` exactly when none of their payloads has room. -/
theorem keepAll_none_iff (h : acc.length < h264FrameSizeMax) (units : List PsUnit) :
    keepAll acc units = acc ↔
      ∀ v ∈ units, v.payload ≠ [] → h264FrameSizeMax ≤ v.payload.length + acc.length := by
  induction units with
  | nil => exact iff_of_true rfl (List.forall_mem_nil _)
  | cons u units ih =>
      rw [keepAll_cons, List.forall_mem_cons]
      by_cases hempty : u.payload = []
      · rw [hempty, keep_nil h, ih]
        simp
      · by_cases hfit : u.payload.length + acc.length < h264FrameSizeMax
        · have hgrown : acc.length < (keep acc u.payload).length := by
            have hpos := List.length_pos_iff.mpr hempty
            rw [keep, if_pos hfit, List.length_append]
            omega
          have hkept := (le_keepAll (keep acc u.payload) units).length_le
          refine iff_of_false (fun hsame => ?_) fun hall => absurd (hall.1 hempty) (by omega)
          rw [hsame] at hkept
          omega
        · rw [keep_rejected (Nat.le_of_not_lt hfit), ih]
          exact (and_iff_right fun _ => Nat.le_of_not_lt hfit).symm

/-- Where the total of the payloads reaches the limit. -/
theorem exists_first_rejected (h : h264FrameSizeMax ≤ (payloads units).length) :
    ∃ front u behind, units = front ++ u :: behind ∧
      (payloads front).length < h264FrameSizeMax ∧
        h264FrameSizeMax ≤ u.payload.length + (payloads front).length := by
  induction units using List.reverseRecOn with
  | nil => exact absurd h (by decide)
  | append_singleton units u ih =>
      by_cases hfront : h264FrameSizeMax ≤ (payloads units).length
      · obtain ⟨front, v, behind, rfl, hlt, hle⟩ := ih hfront
        exact ⟨front, v, behind ++ [u], by simp, hlt, hle⟩
      · refine ⟨units, u, [], rfl, Nat.lt_of_not_le hfront, ?_⟩
        rw [payloads_append, List.length_append] at h
        simpa [payloads, Nat.add_comm] using h

/-- The output is the beginning of the payloads, and no payload is missing in front of another. -/
def NotSpliced (units : List PsUnit) (out : List UInt8) : Prop :=
  out <+: payloads units ∧ ∃ n, out = payloads (units.take n)

/-- Behind the packet with which the total reaches the limit no payload has room. -/
def NoneFitsLater (units : List PsUnit) : Prop :=
  ∀ front u behind, units = front ++ u :: behind →
    (payloads front).length < h264FrameSizeMax →
      h264FrameSizeMax ≤ u.payload.length + (payloads front).length →
        ∀ v ∈ behind, v.payload ≠ [] →
          h264FrameSizeMax ≤ v.payload.length + (payloads front).length

/-- The frame at the packet that is left out first. -/
theorem keepAll_rejected (hfront : (payloads front).length < h264FrameSizeMax)
    (hu : h264FrameSizeMax ≤ u.payload.length + (payloads front).length) :
    keepAll [] (front ++ u :: behind) = keepAll (payloads front) behind := by
  have hkept : keepAll [] front = payloads front := by
    rw [keepAll_eq_append (by rw [List.length_nil, Nat.zero_add]; exact hfront), List.nil_append]
  rw [keepAll_append, hkept, keepAll_cons, keep_rejected hu]

theorem notSpliced_of_take {n : Nat} {out : List UInt8} (h : out = payloads (units.take n)) :
    NotSpliced units out := by
  refine ⟨⟨payloads (units.drop n), ?_⟩, n, h⟩
  rw [h, ← payloads_append, List.take_append_drop]

theorem payloads_take_length (units : List PsUnit) {m n : Nat} (h : m ≤ n) :
    (payloads (units.take m)).length ≤ (payloads (units.take n)).length := by
  have hsplit : units.take n = units.take m ++ (units.take n).drop m := by
    conv_lhs => rw [← List.take_append_drop m (units.take n)]
    rw [List.take_take, Nat.min_eq_left h]
  rw [hsplit, payloads_append, List.length_append]
  exact Nat.le_add_right ..

theorem notSpliced_iff (units : List PsUnit) :
    NotSpliced units (keepAll [] units) ↔ NoneFitsLater units := by
  constructor
  · rintro ⟨-, n, hn⟩ front u behind rfl hfront hu
    have hlimit := keepAll_length_lt (show ([] : List UInt8).length < h264FrameSizeMax by decide)
      (front ++ u :: behind)
    rw [← keepAll_none_iff hfront]
    have hgrown := le_keepAll (payloads front) behind
    rw [← keepAll_rejected hfront hu, hn] at hgrown ⊢
    rw [hn] at hlimit
    -- the output ends in front of `u`, because with `u` it would reach the limit
    have hn' : n ≤ front.length := by
      by_contra hlarge
      have hwith := payloads_take_length (front ++ u :: behind)
        (show front.length + 1 ≤ n by omega)
      have htake : (front ++ u :: behind).take (front.length + 1) = front ++ [u] := by
        have hsplit : front ++ u :: behind = (front ++ [u]) ++ behind := by simp
        rw [hsplit]
        exact List.take_left' (by simp)
      have hone : payloads [u] = u.payload := by simp [payloads]
      rw [htake, payloads_append, List.length_append, hone] at hwith
      omega
    have hless := payloads_take_length (front ++ u :: behind) hn'
    rw [List.take_left] at hless
    exact (hgrown.eq_of_length_le hless).symm
  · intro hnone
    by_cases htotal : (payloads units).length < h264FrameSizeMax
    · apply notSpliced_of_take (n := units.length)
      rw [List.take_length,
        keepAll_eq_append (by rw [List.length_nil, Nat.zero_add]; exact htotal), List.nil_append]
    · obtain ⟨front, u, behind, rfl, hfront, hu⟩ :=
        exists_first_rejected (Nat.le_of_not_lt htotal)
      have hstop := (keepAll_none_iff hfront behind).mpr (hnone front u behind rfl hfront hu)
      apply notSpliced_of_take (n := front.length)
      rw [List.take_left, keepAll_rejected hfront hu, hstop]

/-- `parsingPs` gives back `*outData` with `*outlength` bytes for which `good` holds. -/
def Delivers (srcdata : List UInt8) (good : List UInt8 → Prop) : Prop :=
  ∃ fuel r out, parsingPs srcdata srcdata.length fuel = .leave (.returned r) ∧
    r.outlength = out.length ∧ r.outData.getD [] = out ∧ good out

theorem delivers_iff {srcdata frame : List UInt8} {good : List UInt8 → Prop}
    (h : Ends srcdata (.returned (resultOf frame))) : Delivers srcdata good ↔ good frame := by
  constructor
  · rintro ⟨fuel, r, out, hrun, -, hout, hgood⟩
    have hr : resultOf frame = r := PsEnd.returned.inj (h.unique ⟨fuel, hrun⟩)
    rw [← hr, resultOf_outData] at hout
    rwa [hout]
  · intro hgood
    obtain ⟨fuel, hrun⟩ := h
    exact ⟨fuel, resultOf frame, frame, hrun, rfl, resultOf_outData frame, hgood⟩

/-- A well-formed pack gives a frame without a gap exactly when behind the packet with which the
total of the payloads reaches the size limit no payload has room. -/
theorem parsingPs_notSpliced_iff (b : Buffer) (h : PackHeader) (units : List PsUnit)
    (tail : List UInt8) (hb : b.bytes = h.encode ++ (encodeUnits units ++ tail))
    (htail : tail.length < 4 ∨ tail.take 4 ∉ [startCode 0xBB, startCode 0xBC, startCode 0xE0]) :
    Delivers b.bytes (NotSpliced units) ↔ NoneFitsLater units := by
  rw [delivers_iff (ends_of_wellFormed hb (endsPack_of_tail htail)), notSpliced_iff]

section Spliced

private def plainHeader : PackHeader where
  fixed := [0x00, 0x00, 0x01, 0xBA, 0x44, 0x00, 0x04, 0x00, 0x04, 0x01, 0x00, 0x03, 0xFF, 0xF8]
  stuffing := []
  fixed_length := rfl
  streamId := rfl
  stuffing_length := rfl

private theorem noHeader_fits : ([] : List UInt8).length < 2 ^ 8 := by decide

private theorem one_fits : 3 + ([] : List UInt8).length + ([0x01] : List UInt8).length < 2 ^ 16 := by
  decide

private def oneByte : PsUnit := .video 0x80 0x00 [] [0x01] noHeader_fits one_fits

/-- A frame of one byte. -/
theorem oneByte_notSpliced :
    Delivers (plainHeader.encode ++ (encodeUnits [oneByte] ++ [])) (NotSpliced [oneByte]) := by
  refine (parsingPs_notSpliced_iff ⟨_, by decide⟩ plainHeader [oneByte] [] rfl
    (Or.inl (by decide))).mpr fun front u behind hsplit hfront hu => ?_
  have hshort : (payloads [oneByte]).length = 1 := rfl
  rw [hsplit, payloads_append, payloads_cons, List.length_append, List.length_append] at hshort
  simp only [h264FrameSizeMax] at hu
  omega

private def zeros (n : Nat) (hn : 3 + n < 2 ^ 16) : PsUnit :=
  .video 0x80 0x00 [] (List.replicate n 0) noHeader_fits
    (by simpa only [List.length_nil, List.length_replicate] using hn)

private theorem zeros_length {n : Nat} (hn : 3 + n < 2 ^ 16) :
    (zeros n hn).payload.length = n ∧ (zeros n hn).encode.length = 9 + n := by
  refine ⟨List.length_replicate, ?_⟩
  rw [PsUnit.encode_length]
  simp only [zeros, PsUnit.body, List.length_append, List.length_replicate, List.length_cons,
    List.length_nil]
  omega

private def bigUnit : PsUnit := zeros 65500 (by decide)

private def overLimit : List PsUnit := List.replicate 32 bigUnit ++ bigUnit :: [oneByte]

private theorem overLimit_buffer :
    (plainHeader.encode ++ (encodeUnits overLimit ++ [])).length < 2 ^ 31 := by
  have hbig : bigUnit.encode.length = 65509 := (zeros_length _).2
  have hone : oneByte.encode.length = 10 := rfl
  have hhead : plainHeader.encode.length = 14 := rfl
  simp [overLimit, encodeUnits, hbig, hone, hhead]

/-- Behind 33 packets of 65500 bytes a packet of one byte is appended, the last of the 33 left out. -/
theorem overLimit_spliced : ¬ ∀ (b : Buffer) (h : PackHeader) (units : List PsUnit)
    (tail : List UInt8), b.bytes = h.encode ++ (encodeUnits units ++ tail) →
      (tail.length < 4 ∨ tail.take 4 ∉ [startCode 0xBB, startCode 0xBC, startCode 0xE0]) →
        Delivers b.bytes (NotSpliced units) := by
  intro hall
  have hdelivers := hall ⟨_, overLimit_buffer⟩ plainHeader overLimit [] rfl (Or.inl (by decide))
  have hends : Ends (plainHeader.encode ++ (encodeUnits overLimit ++ []))
      (.returned (resultOf (keepAll [] overLimit))) :=
    ends_of_wellFormed (b := ⟨_, overLimit_buffer⟩) rfl (endsPack_of_tail (Or.inl (by decide)))
  rw [delivers_iff hends, notSpliced_iff] at hdelivers
  have hbig : bigUnit.payload.length = 65500 := (zeros_length _).1
  have hfront : (payloads (List.replicate 32 bigUnit)).length = 2096000 := by
    simp [payloads, hbig]
  have hroom := hdelivers _ _ _ rfl (by rw [hfront]; decide) (by rw [hfront, hbig]; decide) oneByte
    (List.mem_singleton_self _) (by decide)
  rw [hfront] at hroom
  exact absurd hroom (by decide)

end Spliced

end GMProxy.TdPs
