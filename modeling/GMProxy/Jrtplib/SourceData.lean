import GMProxy.Library.Reorder
import GMProxy.Jrtplib.Packet
import GMProxy.Jrtplib.SourceStats

/-!
# The packet queue of a source

`RTPInternalSourceData::ProcessRTPPacket` and `RTPSourceData::GetNextPacket` of the RTP library. The
queue of a source is kept in the order of the extended sequence numbers, so the order in which packets
arrive between two readings of the queue does not matter.
-/

namespace GMProxy.Jrtplib

open Serial Reorder

inductive ProbationType where
  | noProbation
  | probationDiscard
  | probationStore
deriving DecidableEq, Repr

/-- The members of a source that its packets use. -/
structure SourceData where
  probationtype : ProbationType
  stats : RtpSourceStats := {}
  validated : Bool := false
  packetlist : List ParsedPacket := []
deriving DecidableEq

def maxProbationPackets : Nat := 32

/-- The search for the place of a packet, in the queue read from its end: the queue with the packet,
and whether it was stored. -/
def placePacket (rtppack : ParsedPacket) : List ParsedPacket → List ParsedPacket × Bool
  | [] => ([rtppack], true)
  | p :: before =>
      if rtppack.extseqnr < p.extseqnr then
        (p :: (placePacket rtppack before).1, (placePacket rtppack before).2)
      else if p.extseqnr < rtppack.extseqnr then (rtppack :: p :: before, true)
      else (p :: before, false)

namespace SourceData

variable (d : SourceData)

/-- The part of `ProcessRTPPacket` that puts the packet into the queue. -/
def storePacket (rtppack : ParsedPacket) : SourceData × Bool :=
  if d.packetlist = [] then ({ d with packetlist := [rtppack] }, true)
  else
    let packetlist :=
      if d.validated = false ∧ d.packetlist.length = maxProbationPackets then d.packetlist.tail
      else d.packetlist
    let (placed, stored) := placePacket rtppack packetlist.reverse
    ({ d with packetlist := placed.reverse }, stored)

def applyprobation : Bool :=
  if d.validated then false else if d.probationtype = .noProbation then false else true

/-- `ProcessRTPPacket`, and whether it stores the packet. -/
def processRtpPacket (rtppack : ParsedPacket) : SourceData × Bool :=
  let result := d.stats.processPacket rtppack.extseqnr d.applyprobation
  let rtppack := { rtppack with extseqnr := result.extseqnr }
  let d := { d with stats := result.stats }
  match d.probationtype with
  | .probationStore =>
      if result.onprobation = false ∧ result.accept = false then (d, false)
      else { d with validated := d.validated || result.accept }.storePacket rtppack
  | .probationDiscard | .noProbation =>
      if result.accept = false then (d, false)
      else { d with validated := true }.storePacket rtppack

def getNextPacket : Option (ParsedPacket × SourceData) :=
  if d.validated = false then none
  else
    match d.packetlist with
    | [] => none
    | p :: packetlist => some (p, { d with packetlist := packetlist })

/-- The source after packets that arrive one after the other. -/
def receive (packs : List ParsedPacket) : SourceData :=
  packs.foldl (fun d rtppack => (d.processRtpPacket rtppack).1) d

theorem getNextPacket_length {p : ParsedPacket} {d' : SourceData}
    (h : d.getNextPacket = some (p, d')) : d'.packetlist.length < d.packetlist.length := by
  unfold getNextPacket at h
  split at h
  · cases h
  · split at h
    · cases h
    case h_2 hlist =>
      cases h
      rw [hlist, List.length_cons]
      exact Nat.lt_succ_self _

/-- The packets that `GetNextPacket` gives until it gives none. -/
def takePackets (d : SourceData) : List ParsedPacket × SourceData :=
  match _h : d.getNextPacket with
  | none => ([], d)
  | some (p, d') => (p :: (takePackets d').1, (takePackets d').2)
termination_by d.packetlist.length
decreasing_by all_goals exact getNextPacket_length d _h

end SourceData

/-- The packet at a place with its extended sequence number. -/
def numbered (sent : Nat → ParsedPacket) (e : Nat) : ParsedPacket :=
  { sent e with extseqnr := UInt32.ofNat e }

/-- A validated source behind probation whose queue holds the packets of the places in `es`; `m` is
the highest place so far. -/
structure Holds (sent : Nat → ParsedPacket) (d : SourceData) (m : Nat) (es : Finset Nat) : Prop where
  validated : d.validated = true
  tracks : Tracks d.stats m
  packetlist : d.packetlist = (es.sort (· ≤ ·)).map (numbered sent)
  small : ∀ e ∈ es, e < 2 ^ 32

variable {sent : Nat → ParsedPacket} {d : SourceData} {m e : Nat} {es : Finset Nat}

private theorem placePacket_numbered (he : e < 2 ^ 32) {l : List Nat} (hl : ∀ b ∈ l, b < 2 ^ 32) :
    (placePacket (numbered sent e) (l.map (numbered sent))).1 =
      (insertDown e l).map (numbered sent) := by
  have hlt {a b : Nat} (ha : a < 2 ^ 32) (hb : b < 2 ^ 32) :
      UInt32.ofNat a < UInt32.ofNat b ↔ a < b := by
    rw [UInt32.lt_iff_toNat_lt, UInt32.toNat_ofNat_of_lt' ha, UInt32.toNat_ofNat_of_lt' hb]
  induction l with
  | nil => rfl
  | cons b l ih =>
      have hb := hl b (List.mem_cons_self ..)
      have hrest := ih fun c hc => hl c (List.mem_cons_of_mem _ hc)
      have hdown : (numbered sent e).extseqnr < (numbered sent b).extseqnr ↔ e < b := hlt he hb
      have hup : (numbered sent b).extseqnr < (numbered sent e).extseqnr ↔ b < e := hlt hb he
      rw [List.map_cons, placePacket, insertDown]
      by_cases hless : e < b
      · rw [if_pos (hdown.mpr hless), if_pos hless, hrest, List.map_cons]
      · rw [if_neg (mt hdown.mp hless), if_neg hless]
        by_cases hmore : b < e
        · rw [if_pos (hup.mpr hmore), if_pos hmore, List.map_cons, List.map_cons]
        · rw [if_neg (mt hup.mp hmore), if_neg hmore, List.map_cons]

/-- A packet is put at its place in the queue, unless it is there already. -/
theorem storePacket_packetlist (sent : Nat → ParsedPacket) (e : Nat)
    (hroom : ¬ (d.validated = false ∧ d.packetlist.length = maxProbationPackets))
    (hlist : d.packetlist = (es.sort (· ≤ ·)).map (numbered sent)) (hsmall : ∀ b ∈ es, b < 2 ^ 32)
    (he : e < 2 ^ 32) :
    (d.storePacket (numbered sent e)).1 =
      { d with packetlist := ((insert e es).sort (· ≤ ·)).map (numbered sent) } := by
  have hmem : ∀ b ∈ fallingList es, b < 2 ^ 32 := fun b hb => hsmall b (mem_fallingList.mp hb)
  have hplaced : (placePacket (numbered sent e) d.packetlist.reverse).1.reverse =
      ((insert e es).sort (· ≤ ·)).map (numbered sent) := by
    rw [hlist, ← List.map_reverse, ← fallingList, placePacket_numbered he hmem,
      insertDown_fallingList, fallingList, List.map_reverse, List.reverse_reverse]
  unfold SourceData.storePacket
  by_cases hempty : d.packetlist = []
  · rw [if_pos hempty]
    rw [hempty] at hplaced
    rw [← hplaced]
    rfl
  · rw [if_neg hempty, if_neg hroom]
    dsimp only
    rw [hplaced]

/-- Whether a packet is put into the queue. -/
def keepsPacket (probationtype : ProbationType) (result : Processed) : Bool :=
  result.accept || (probationtype == .probationStore && result.onprobation)

/-- The packet is numbered; if it is kept, an accepted one validates the source and it is stored. -/
theorem processRtpPacket_eq {rtppack : ParsedPacket} {result : Processed}
    (h : d.stats.processPacket rtppack.extseqnr d.applyprobation = result) :
    d.processRtpPacket rtppack =
      if keepsPacket d.probationtype result then
        ({ d with stats := result.stats, validated := d.validated || result.accept } :
          SourceData).storePacket { rtppack with extseqnr := result.extseqnr }
      else ({ d with stats := result.stats }, false) := by
  unfold SourceData.processRtpPacket keepsPacket
  rw [h]
  obtain ⟨stats, extseqnr, accept, onprobation⟩ := result
  cases htype : d.probationtype <;> cases accept <;> cases onprobation <;> simp

/-- What is asked of the packets of a sender: the packet at a place carries the low bits of the
place. -/
def Carries (sent : Nat → ParsedPacket) : Prop :=
  ∀ e, (sent e).extseqnr = (UInt16.ofNat e).toUInt32

theorem Holds.step (h : Holds sent d m es) (hsent : Carries sent) (hreach : InReach seqCycle m e)
    (he : e < 2 ^ 32) : Holds sent (d.processRtpPacket (sent e)).1 (max m e) (insert e es) := by
  obtain ⟨hext, haccept, htracks⟩ :=
    tracks_processPacket (UInt16.ofNat e) h.tracks false
  have hplace : extend seqCycle m (UInt16.ofNat e).toNat = e := by
    rw [UInt16.toNat_ofNat']
    exact (extend_eq_iff (by decide)).mpr hreach
  rw [hplace] at hext htracks
  rw [← hsent e] at hext haccept htracks
  have happlies : d.applyprobation = false := by
    rw [SourceData.applyprobation, if_pos h.validated]
  rw [← happlies] at hext haccept htracks
  have hkept : keepsPacket d.probationtype (d.stats.processPacket (sent e).extseqnr d.applyprobation) = true := by
    rw [keepsPacket, haccept, Bool.true_or]
  have hstored := storePacket_packetlist sent e
    (d := { d with
      stats := (d.stats.processPacket (sent e).extseqnr d.applyprobation).stats, validated := true })
    (by simp) h.packetlist h.small he
  rw [numbered] at hstored
  rw [processRtpPacket_eq rfl, if_pos hkept, hext, haccept, Bool.or_true, hstored]
  refine ⟨rfl, htracks, rfl, ?_⟩
  intro b hb
  rcases Finset.mem_insert.mp hb with rfl | hb
  · exact he
  · exact h.small b hb

/-- Packets in reach fill the queue, whatever the order in which they arrive. -/
theorem Holds.receive {arrivals : List Nat} (h : Holds sent d m es) (hsent : Carries sent)
    (hreach : Reaches seqCycle m arrivals) (hsmall : ∀ e ∈ arrivals, e < 2 ^ 32) :
    Holds sent (d.receive (arrivals.map sent)) (arrivals.foldl max m) (es ∪ arrivals.toFinset) := by
  induction arrivals generalizing d m es with
  | nil =>
      rw [List.toFinset_nil, Finset.union_empty]
      exact h
  | cons e arrivals ih =>
      have hnext := h.step hsent hreach.1 (hsmall e (List.mem_cons_self ..))
      have hrest := ih hnext hreach.2 fun b hb => hsmall b (List.mem_cons_of_mem _ hb)
      rw [List.toFinset_cons, Finset.union_insert, ← Finset.insert_union]
      exact hrest

/-- Reading a validated source empties its queue. -/
theorem takePackets_validated (h : d.validated = true) :
    d.takePackets = (d.packetlist, { d with packetlist := [] }) := by
  generalize hlist : d.packetlist = packetlist
  induction packetlist generalizing d with
  | nil =>
      have hnext : d.getNextPacket = none := by
        simp [SourceData.getNextPacket, hlist]
      rw [SourceData.takePackets]
      split
      case h_1 => rw [← hlist]
      case h_2 p d' hp =>
        rw [hnext] at hp
        cases hp
  | cons q packetlist ih =>
      have hnext : d.getNextPacket = some (q, { d with packetlist := packetlist }) := by
        simp [SourceData.getNextPacket, hlist, h]
      rw [SourceData.takePackets]
      split
      case h_1 hp =>
        rw [hnext] at hp
        cases hp
      case h_2 p d' hp =>
        rw [hnext] at hp
        obtain ⟨rfl, rfl⟩ := Prod.mk.inj (Option.some.inj hp)
        rw [ih (d := { d with packetlist := packetlist }) h rfl]

theorem Holds.takePackets (h : Holds sent d m es) :
    d.takePackets.1 = (es.sort (· ≤ ·)).map (numbered sent) ∧ Holds sent d.takePackets.2 m ∅ := by
  rw [takePackets_validated h.validated]
  refine ⟨h.packetlist, h.validated, h.tracks, ?_, ?_⟩
  · rw [Finset.sort_empty]
    rfl
  · intro e he
    cases he

/-- What the readings of the queue give, one behind each batch of arrivals. -/
def readings (d : SourceData) : List (List ParsedPacket) → List (List ParsedPacket)
  | [] => []
  | batch :: batches =>
      (d.receive batch).takePackets.1 :: readings (d.receive batch).takePackets.2 batches

/-- A reading gives the packets of its batch in the order in which they were sent, each once, whatever
the order in which they arrived and however often, as long as each arrives in reach of the highest
place before it. -/
theorem readings_sorted (sent : Nat → ParsedPacket) (hsent : Carries sent) (d : SourceData) (m : Nat)
    (h : Holds sent d m ∅) (batches : List (List Nat))
    (hreach : Reaches seqCycle m batches.flatten) (hsmall : ∀ e ∈ batches.flatten, e < 2 ^ 32) :
    readings d (batches.map (List.map sent)) =
      batches.map fun batch => (batch.toFinset.sort (· ≤ ·)).map (numbered sent) := by
  induction batches generalizing d m with
  | nil => rfl
  | cons batch batches ih =>
      rw [List.flatten_cons, reaches_append] at hreach
      have hbatch := h.receive hsent hreach.1 fun e he =>
        hsmall e (by rw [List.flatten_cons]; exact List.mem_append_left _ he)
      obtain ⟨htaken, hafter⟩ := hbatch.takePackets
      rw [Finset.empty_union] at htaken
      rw [List.map_cons, readings, htaken, List.map_cons,
        ih _ _ hafter hreach.2 fun e he =>
          hsmall e (by rw [List.flatten_cons]; exact List.mem_append_right _ he)]

/-- Packets of one byte, the place. -/
def smallPacket (e : Nat) : ParsedPacket :=
  ⟨true, 0, 96, (UInt16.ofNat e).toUInt32, 0, 9, none, [], [UInt8.ofNat e]⟩

/-- Packet 2 arrives behind packet 3, which arrives twice. -/
theorem readings_sorted_swapped :
    readings ⟨.probationStore, ⟨true, 0, 0, 1, 1, 0⟩, true, []⟩
        [[smallPacket 3, smallPacket 2, smallPacket 3], [smallPacket 4]] =
      [[numbered smallPacket 2, numbered smallPacket 3], [numbered smallPacket 4]] := by
  have hsorted := readings_sorted smallPacket (fun _ => rfl)
    ⟨.probationStore, ⟨true, 0, 0, 1, 1, 0⟩, true, []⟩ 1
    ⟨rfl, ⟨rfl, rfl, rfl⟩, by rw [Finset.sort_empty]; rfl, fun e he => by cases he⟩
    [[3, 2, 3], [4]] ⟨by decide, by decide, by decide, by decide, trivial⟩ (by decide)
  have hfirst : [3, 2, 3].toFinset.sort (· ≤ ·) = [2, 3] :=
    sort_toFinset (by decide) fun e => by simp; omega
  have hsecond : [4].toFinset.sort (· ≤ ·) = [4] := sort_toFinset (by decide) fun e => Iff.rfl
  simpa only [List.map_cons, List.map_nil, hfirst, hsecond] using hsorted

end GMProxy.Jrtplib
