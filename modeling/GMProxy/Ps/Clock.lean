import GMProxy.Ps.MuxPack
import GMProxy.Ps.DemuxResult

/-!
# The time of a pack

Which time a pack carries in its header and in its video packets, and which time `packagingPs` puts
there.
-/

namespace GMProxy.TdPs

open CMemory

/-- The units of a block, each as long as its length field says. -/
def cutUnits (bytes : List UInt8) : List (List UInt8) :=
  if 6 ≤ bytes.length then
    bytes.take (6 + declaredLength bytes) :: cutUnits (bytes.drop (6 + declaredLength bytes))
  else []
termination_by bytes.length
decreasing_by
  rw [List.length_drop]
  omega

/-- The clock reference of the pack header and both stamps of every video packet are `time`. -/
structure CarriesTime (pack : List UInt8) (time : Nat) : Prop where
  scr : scrBase pack = time
  stamps : ∀ unit ∈ cutUnits (unitArea pack), HasStartCode 0xE0 unit →
    ptsOf unit = time ∧ dtsOf unit = time

theorem cutUnits_encodeUnits (units : List PsUnit) :
    cutUnits (encodeUnits units) = units.map PsUnit.encode := by
  induction units with
  | nil =>
      rw [cutUnits]
      rfl
  | cons u units ih =>
      have hsplit : encodeUnits (u :: units) = u.encode ++ encodeUnits units := List.flatMap_cons ..
      have hsix : 6 ≤ (u.encode ++ encodeUnits units).length := by
        rw [List.length_append, u.encode_length]
        omega
      rw [hsplit, cutUnits, if_pos hsix, u.declaredLength_encode, u.drop_encode, ih,
        ← u.encode_length, List.take_left' rfl, List.map_cons]

variable (fresh : Nat → UInt8) {stream : H264Stream}

private theorem frontUnits_not_video {u : PsUnit} (h : u ∈ frontUnits stream) :
    ¬ HasStartCode 0xE0 u.encode := by
  have hall : ∀ u ∈ [sysHeaderUnit, psmHeaderUnit], ¬ HasStartCode 0xE0 u.encode := by decide
  rw [frontUnits] at h
  split at h
  · exact hall u h
  · cases h

/-- A pack carries the time of its frame and no other. -/
theorem packagingPs_carriesTime (hsize : stream.data.length < 2 ^ 31) (hdts : stream.dts = stream.pts) :
    ∃ pack, packagingPs fresh stream = some pack ∧
      ∀ time, CarriesTime pack.outData time ↔ time = stream.pts.toNat % 2 ^ 33 := by
  obtain ⟨h, units, -, hclock, hstamped, -, -, hpack⟩ := packagingPs_units fresh stream hsize
  refine ⟨_, hpack, fun time => ?_⟩
  have hscr : scrBase (h.encode ++ encodeUnits (frontUnits stream ++ units)) =
      stream.pts.toNat % 2 ^ 33 := (hclock.append _).timeStampAt_eq
  constructor
  · intro htime
    rw [← hscr]
    exact htime.scr.symm
  · rintro rfl
    refine ⟨hscr, fun unit hunit hvideo => ?_⟩
    rw [packOf, h.unitArea_append, cutUnits_encodeUnits] at hunit
    obtain ⟨u, hu, rfl⟩ := List.mem_map.mp hunit
    rcases List.mem_append.mp hu with hfront | hu
    · exact absurd hvideo (frontUnits_not_video hfront)
    · obtain ⟨⟨hpts, hdtsClock⟩, -⟩ := hstamped u hu
      rw [hdts] at hdtsClock
      exact ⟨hpts.timeStampAt_eq, hdtsClock.timeStampAt_eq⟩

/-- A frame whose size is negative as an `int` cannot be copied. -/
theorem packagingPs_large (hsize : 2 ^ 31 ≤ stream.data.length) : packagingPs fresh stream = none := by
  have hlt := stream.size.toNat_lt
  rw [stream.size_eq] at hlt
  have hremain : toInt stream.size.toNat = (stream.data.length : Int) - 2 ^ 32 := by
    rw [stream.size_eq]
    simp only [toInt, Int.bmod]
    omega
  have hcount := toSize_of_neg (show -2 ^ 32 ≤ (stream.data.length : Int) - 2 ^ 32 by omega)
    (by omega)
  have hneg : ¬ ((pesPayloadMax : Nat) : Int) < (stream.data.length : Int) - 2 ^ 32 := by
    omega
  rw [packagingPs, hremain, packLoop, if_neg hneg, appendPes, memcpy_of_lt (by omega)]
  rfl

end GMProxy.TdPs
