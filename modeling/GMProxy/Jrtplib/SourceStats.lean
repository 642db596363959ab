import GMProxy.Library.Serial
import GMProxy.Library.Transducer

/-!
# Sequence numbers of a source

`RTPSourceStats::ProcessPacket` of the RTP library: the probation of a new source, and the extended
sequence numbers of the packets behind it.
-/

namespace GMProxy.Jrtplib

open Serial Transducer

/-- The members of `RTPSourceStats` that its sequence numbers use. -/
structure RtpSourceStats where
  sentdata : Bool := false
  numcycles : UInt32 := 0
  baseseqnr : UInt32 := 0
  exthighseqnr : UInt32 := 0
  prevseqnr : UInt16 := 0
  probation : Nat := 0
deriving DecidableEq

def rtpProbationcount : Nat := 2

/-- What `ProcessPacket` leaves: the members, the sequence number of the packet and the flags. -/
structure Processed where
  stats : RtpSourceStats
  extseqnr : UInt32
  accept : Bool
  onprobation : Bool
deriving DecidableEq

namespace RtpSourceStats

variable (s : RtpSourceStats)

/-- `ACCEPTPACKETCODE`. -/
def acceptPacket (extseqnr : UInt32) : Processed :=
  let baseseqnr := if extseqnr = 0 then 0x0000ffff else extseqnr - 1
  let numcycles := if extseqnr = 0 then 0x00010000 else s.numcycles
  let exthighseqnr := baseseqnr + 1
  ⟨{ s with
      sentdata := true, numcycles := numcycles, baseseqnr := baseseqnr, exthighseqnr := exthighseqnr },
    exthighseqnr, true, false⟩

/-- `ProcessPacket` for a packet that carries `extseqnr`, a number of 16 bits. -/
def processPacket (extseqnr : UInt32) (applyprobation : Bool) : Processed :=
  if s.sentdata = false then
    if applyprobation then
      let first : RtpSourceStats :=
        { s with probation := rtpProbationcount, prevseqnr := extseqnr.toUInt16 }
      if s.probation ≠ 0 then
        let pseq := s.prevseqnr + 1
        if pseq.toUInt32 = extseqnr then
          let next : RtpSourceStats :=
            { s with prevseqnr := extseqnr.toUInt16, probation := s.probation - 1 }
          if next.probation = 0 then next.acceptPacket extseqnr else ⟨next, extseqnr, false, true⟩
        else ⟨first, extseqnr, false, true⟩
      else ⟨first, extseqnr, false, true⟩
    else s.acceptPacket extseqnr
  else
    let maxseq16 := (s.exthighseqnr &&& 0x0000ffff).toUInt16
    if maxseq16.toUInt32 ≤ extseqnr then
      ⟨{ s with exthighseqnr := s.numcycles + extseqnr }, s.numcycles + extseqnr, true, false⟩
    else
      let dif1 := extseqnr.toUInt16 - maxseq16
      let dif2 := maxseq16 - extseqnr.toUInt16
      if dif1 < dif2 then
        let numcycles := s.numcycles + 0x00010000
        ⟨{ s with numcycles := numcycles, exthighseqnr := numcycles + extseqnr },
          numcycles + extseqnr, true, false⟩
      else ⟨s, s.numcycles + extseqnr, true, false⟩

/-- The sequence numbers that packets get behind probation. -/
def number (s : RtpSourceStats) (seqnr : UInt16) : RtpSourceStats × List UInt32 :=
  let result := s.processPacket seqnr.toUInt32 false
  (result.stats, [result.extseqnr])

end RtpSourceStats

def seqCycle : Nat := 65536

/-- The members stand for `m` as the highest place so far. -/
structure Tracks (s : RtpSourceStats) (m : Nat) : Prop where
  sentdata : s.sentdata = true
  numcycles : s.numcycles = UInt32.ofNat (m / seqCycle * seqCycle)
  exthighseqnr : s.exthighseqnr = UInt32.ofNat m

/-- The place at which a source starts. -/
def startPlace (seqnr : UInt16) : Nat := if seqnr = 0 then seqCycle else seqnr.toNat

variable {s : RtpSourceStats} {m : Nat}

private theorem cycle_add_div {q r : Nat} (hr : r < seqCycle) :
    (q * seqCycle + r) / seqCycle * seqCycle = q * seqCycle := by
  rw [Nat.mul_comm q, Nat.mul_add_div (by decide), Nat.div_eq_of_lt hr, Nat.add_zero, Nat.mul_comm]

theorem tracks_acceptPacket (seqnr : UInt16) (hcycles : s.numcycles = 0) :
    (s.acceptPacket seqnr.toUInt32).extseqnr = UInt32.ofNat (startPlace seqnr) ∧
      Tracks (s.acceptPacket seqnr.toUInt32).stats (startPlace seqnr) := by
  by_cases hzero : seqnr = 0
  · subst hzero
    exact ⟨rfl, rfl, rfl, rfl⟩
  · have hseq : seqnr.toUInt32 ≠ 0 := by
      intro h
      have hnat := congrArg UInt32.toNat h
      rw [UInt16.toNat_toUInt32] at hnat
      exact hzero (UInt16.toNat_inj.mp hnat)
    have hlast : seqnr.toUInt32 - 1 + 1 = UInt32.ofNat seqnr.toNat := by
      rw [UInt32.sub_add_cancel]
      exact (UInt32.ofNat_uInt16ToNat seqnr).symm
    rw [RtpSourceStats.acceptPacket, startPlace, if_neg hzero, if_neg hseq, if_neg hseq]
    refine ⟨hlast, rfl, ?_, hlast⟩
    dsimp only
    rw [hcycles, Nat.div_eq_of_lt (show seqnr.toNat < seqCycle from seqnr.toNat_lt), Nat.zero_mul]
    rfl

private theorem Tracks.advance {place : Nat} {numcycles exthighseqnr : UInt32} (h : Tracks s m)
    (hcycles : numcycles = UInt32.ofNat (place / seqCycle * seqCycle))
    (hext : exthighseqnr = UInt32.ofNat place) :
    Tracks { s with numcycles := numcycles, exthighseqnr := exthighseqnr } place :=
  ⟨h.sentdata, hcycles, hext⟩

private theorem maxseq16_toNat (h : s.exthighseqnr = UInt32.ofNat m) :
    (s.exthighseqnr &&& 0x0000ffff).toUInt16.toNat = m % seqCycle := by
  rw [h, UInt32.toNat_toUInt16, UInt32.toNat_and, UInt32.toNat_ofNat',
    show (0x0000ffff : UInt32).toNat = 2 ^ 16 - 1 from rfl, Nat.and_two_pow_sub_one_eq_mod,
    Nat.mod_mod, Nat.mod_mod_of_dvd _ (by decide)]
  rfl

/-- A packet behind probation gets the place that its number is taken for. -/
theorem tracks_processPacket (seqnr : UInt16) (h : Tracks s m) (applyprobation : Bool) :
    let place := extend seqCycle m seqnr.toNat
    (s.processPacket seqnr.toUInt32 applyprobation).extseqnr = UInt32.ofNat place ∧
      (s.processPacket seqnr.toUInt32 applyprobation).accept = true ∧
      Tracks (s.processPacket seqnr.toUInt32 applyprobation).stats (max m place) := by
  have hm := Nat.div_add_mod m seqCycle
  have hmlt := Nat.mod_lt m (show 0 < seqCycle by decide)
  have hmax := maxseq16_toNat h.exthighseqnr
  have hseqlt : seqnr.toNat < seqCycle := seqnr.toNat_lt
  have hseq : seqnr.toUInt32 = UInt32.ofNat seqnr.toNat := (UInt32.ofNat_uInt16ToNat seqnr).symm
  have hsame : s.numcycles + seqnr.toUInt32 =
      UInt32.ofNat (m / seqCycle * seqCycle + seqnr.toNat) := by
    rw [h.numcycles, hseq, UInt32.ofNat_add]
  have hnext : s.numcycles + 0x00010000 = UInt32.ofNat ((m / seqCycle + 1) * seqCycle) := by
    rw [h.numcycles, Nat.succ_mul, UInt32.ofNat_add]
    rfl
  have hdata : s.sentdata ≠ false := by
    rw [h.sentdata]
    decide
  dsimp only
  unfold RtpSourceStats.processPacket
  rw [if_neg hdata]
  dsimp only
  generalize hmaxseq : (s.exthighseqnr &&& 0x0000ffff).toUInt16 = maxseq16 at hmax ⊢
  have hle : maxseq16.toUInt32 ≤ seqnr.toUInt32 ↔ m % seqCycle ≤ seqnr.toNat := by
    rw [UInt32.le_iff_toNat_le, UInt16.toNat_toUInt32, UInt16.toNat_toUInt32, hmax]
  by_cases hup : m % seqCycle ≤ seqnr.toNat
  · have hplace : extend seqCycle m seqnr.toNat = m / seqCycle * seqCycle + seqnr.toNat := by
      rw [extend, cycle, if_pos hup]
    rw [if_pos (hle.mpr hup), hplace, Nat.max_eq_right (by rw [Nat.mul_comm]; omega)]
    refine ⟨hsame, rfl, h.advance ?_ hsame⟩
    rw [cycle_add_div hseqlt]
    exact h.numcycles
  · have hback : seqnr.toUInt32.toUInt16 = seqnr := UInt16.toUInt16_toUInt32 seqnr
    have hdif1 : (seqnr - maxseq16).toNat = seqnr.toNat + seqCycle - m % seqCycle := by
      rw [UInt16.toNat_sub, hmax]
      simp only [seqCycle] at *
      omega
    have hdif2 : (maxseq16 - seqnr).toNat = m % seqCycle - seqnr.toNat := by
      rw [UInt16.toNat_sub, hmax]
      simp only [seqCycle] at *
      omega
    have hdif : seqnr - maxseq16 < maxseq16 - seqnr ↔
        seqnr.toNat + seqCycle - m % seqCycle < m % seqCycle - seqnr.toNat := by
      rw [UInt16.lt_iff_toNat_lt, hdif1, hdif2]
    rw [if_neg (fun h => hup (hle.mp h)), hback]
    by_cases hwrap : seqnr.toNat + seqCycle - m % seqCycle < m % seqCycle - seqnr.toNat
    · have hplace : extend seqCycle m seqnr.toNat = (m / seqCycle + 1) * seqCycle + seqnr.toNat := by
        rw [extend, cycle, if_neg hup, if_pos hwrap]
      have hext : s.numcycles + 0x00010000 + seqnr.toUInt32 =
          UInt32.ofNat ((m / seqCycle + 1) * seqCycle + seqnr.toNat) := by
        rw [hnext, hseq, UInt32.ofNat_add]
      have hahead : m ≤ (m / seqCycle + 1) * seqCycle + seqnr.toNat := by
        rw [Nat.succ_mul, Nat.mul_comm]
        omega
      rw [if_pos (hdif.mpr hwrap), hplace, Nat.max_eq_right hahead]
      refine ⟨hext, rfl, h.advance ?_ hext⟩
      rw [cycle_add_div hseqlt]
      exact hnext
    · have hplace : extend seqCycle m seqnr.toNat = m / seqCycle * seqCycle + seqnr.toNat := by
        rw [extend, cycle, if_neg hup, if_neg hwrap]
      rw [if_neg (fun h => hwrap (hdif.mp h)), hplace, Nat.max_eq_left (by rw [Nat.mul_comm]; omega)]
      exact ⟨hsame, rfl, h⟩

private theorem number_eq (seqnr : UInt16) (h : Tracks s m) :
    ∃ s', s.number seqnr = (s', [UInt32.ofNat (extend seqCycle m seqnr.toNat)]) ∧
      Tracks s' (max m (extend seqCycle m seqnr.toNat)) := by
  obtain ⟨hext, -, htracks⟩ := tracks_processPacket seqnr h false
  exact ⟨_, by rw [RtpSourceStats.number, hext], htracks⟩

private theorem extend_lt {n : Nat} (hn : n < seqCycle) : extend seqCycle m n < m + 2 * seqCycle := by
  have hm := Nat.div_add_mod m seqCycle
  have hle : cycle seqCycle m n ≤ m / seqCycle + 1 := by
    unfold cycle
    split_ifs <;> omega
  have hmul := Nat.mul_le_mul_right seqCycle hle
  rw [Nat.succ_mul, Nat.mul_comm (m / seqCycle)] at hmul
  rw [extend]
  omega

private theorem ofNat_inj {a b : Nat} (ha : a < 2 ^ 32) (hb : b < 2 ^ 32) :
    UInt32.ofNat a = UInt32.ofNat b ↔ a = b := by
  constructor
  · intro h
    have hnat := congrArg UInt32.toNat h
    rwa [UInt32.toNat_ofNat_of_lt' ha, UInt32.toNat_ofNat_of_lt' hb] at hnat
  · exact congrArg UInt32.ofNat

/-- The packets of a source behind probation get their true extended sequence numbers exactly if each
arrives in reach of the highest place before it. -/
theorem number_run_iff (s : RtpSourceStats) (m : Nat) (es : List Nat) (h : Tracks s m)
    (hm : m + 2 * seqCycle < 2 ^ 32) (hes : ∀ e ∈ es, e + 2 * seqCycle < 2 ^ 32) :
    (run RtpSourceStats.number s (es.map UInt16.ofNat)).2 = es.map UInt32.ofNat ↔
      Reaches seqCycle m es := by
  induction es generalizing s m with
  | nil => exact iff_of_true rfl trivial
  | cons e es ih =>
      have he := hes e (List.mem_cons_self ..)
      obtain ⟨s', hnumber, htracks⟩ := number_eq (UInt16.ofNat e) h
      rw [UInt16.toNat_ofNat', show (2 : Nat) ^ 16 = seqCycle from rfl] at hnumber htracks
      have hplace := extend_lt (m := m) (Nat.mod_lt e (show 0 < seqCycle by decide))
      rw [List.map_cons, run_cons, hnumber, List.map_cons, List.cons_append, List.nil_append,
        List.cons.injEq, ofNat_inj (by omega) (by omega), extend_eq_iff (by decide), Reaches]
      apply and_congr_right
      intro hreach
      rw [(extend_eq_iff (by decide)).mpr hreach] at htracks
      exact ih s' (max m e) htracks (by omega) fun d hd => hes d (List.mem_cons_of_mem _ hd)

/-- Packet 65537 arrives before packet 65536, behind the end of the first cycle. -/
theorem number_run_wrap :
    (run RtpSourceStats.number ⟨true, 0, 65534, 65535, 0, 0⟩ [1, 0]).2 = [65537, 65536] :=
  (number_run_iff ⟨true, 0, 65534, 65535, 0, 0⟩ 65535 [65537, 65536] ⟨rfl, rfl, rfl⟩ (by decide)
    (by decide)).mpr (by decide)

end GMProxy.Jrtplib
