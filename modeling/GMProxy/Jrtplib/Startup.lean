import GMProxy.Jrtplib.Probation

/-!
# The start of a source

Packets that arrive before a source is validated wait in its queue under the numbers they carry. From
the packet on that validates the source they are read like all others.
-/

namespace GMProxy.Jrtplib

open Serial Reorder

/-- The last number of 16 bits: a source that is validated behind it is taken to start a cycle later. -/
def lastSeqnr : Nat := 65535

/-- A source on probation whose queue holds the packets of the places in `es`. -/
structure Waits (sent : Nat → ParsedPacket) (d : SourceData) (recent : List UInt16)
    (es : Finset Nat) : Prop where
  onProbation : OnProbation d recent
  stores : d.probationtype = .probationStore
  numcycles : d.stats.numcycles = 0
  packetlist : d.packetlist = (es.sort (· ≤ ·)).map (numbered sent)
  low : ∀ e ∈ es, e < lastSeqnr
  recentLow : ∀ x ∈ recent, x.toNat < lastSeqnr

variable {sent : Nat → ParsedPacket} {d : SourceData} {recent : List UInt16} {es : Finset Nat}
  {e : Nat}

private theorem remember_low (he : e < lastSeqnr) (hlow : ∀ x ∈ recent, x.toNat < lastSeqnr) :
    ∀ x ∈ remember (UInt16.ofNat e) recent, x.toNat < lastSeqnr := by
  have hself : (UInt16.ofNat e).toNat < lastSeqnr := by
    rw [UInt16.toNat_ofNat_of_lt' (Nat.lt_succ_of_lt he)]
    exact he
  intro x hx
  unfold remember at hx
  split at hx
  · split at hx
    · rcases List.mem_cons.mp hx with rfl | hx
      · exact hlow _ (List.mem_cons_self ..)
      · rw [List.mem_singleton.mp hx]
        exact hself
    · rw [List.mem_singleton.mp hx]
      exact hself
  · rw [List.mem_singleton.mp hx]
    exact hself

private theorem startPlace_third {x : UInt16} (he : e < lastSeqnr) (hthird : UInt16.ofNat e = x + 2)
    (hlow : ∀ y ∈ [x, x + 1], y.toNat < lastSeqnr) : startPlace (UInt16.ofNat e) = e := by
  have hnat : (UInt16.ofNat e).toNat = e := UInt16.toNat_ofNat_of_lt' (Nat.lt_succ_of_lt he)
  have hx := hlow x (by simp)
  have hnext := hlow (x + 1) (by simp)
  have hsum := congrArg UInt16.toNat hthird
  rw [UInt16.toNat_add, show (1 : UInt16).toNat = 1 from rfl] at hnext
  rw [hnat, UInt16.toNat_add, show (2 : UInt16).toNat = 2 from rfl] at hsum
  have hzero : UInt16.ofNat e ≠ 0 := by
    intro h
    rw [h] at hnat
    simp only [lastSeqnr, UInt16.toNat_zero] at *
    omega
  rw [startPlace, if_neg hzero, hnat]

/-- A packet on probation is put at its place; the third of three validates the source. -/
theorem Waits.step (h : Waits sent d recent es) (hsent : Carries sent) (he : e < lastSeqnr)
    (hroom : es.card < maxProbationPackets) :
    ((∃ x, recent = [x, x + 1] ∧ UInt16.ofNat e = x + 2) ∧
        Holds sent (d.processRtpPacket (sent e)).1 e (insert e es)) ∨
      (¬ (∃ x, recent = [x, x + 1] ∧ UInt16.ofNat e = x + 2) ∧
        Waits sent (d.processRtpPacket (sent e)).1 (remember (UInt16.ofNat e) recent)
          (insert e es)) := by
  have hseq : (UInt16.ofNat e).toUInt32 = UInt32.ofNat e := by
    rw [← UInt32.ofNat_uInt16ToNat, UInt16.toNat_ofNat_of_lt' (Nat.lt_succ_of_lt he)]
  have hwide : ∀ {b : Nat}, b < lastSeqnr → b < 2 ^ 32 := by
    intro b hb
    simp only [lastSeqnr] at hb
    omega
  have hall : ∀ b ∈ insert e es, b < lastSeqnr := by
    intro b hb
    rcases Finset.mem_insert.mp hb with rfl | hb
    · exact he
    · exact h.low b hb
  rcases processPacket_probation (y := UInt16.ofNat e) h.onProbation.recent h.onProbation.sentdata
    with ⟨x, hx, hthird, haccepted⟩ | ⟨hnot, s', hremembered, hdata, hcycles, hrecent⟩
  · refine Or.inl ⟨⟨x, hx, hthird⟩, ?_⟩
    have hplace := startPlace_third he hthird (by rw [← hx]; exact h.recentLow)
    obtain ⟨hext, htracks⟩ := tracks_acceptPacket (UInt16.ofNat e)
      (s := { d.stats with prevseqnr := UInt16.ofNat e, probation := 0 }) h.numcycles
    rw [hplace] at hext htracks
    generalize hresult : RtpSourceStats.acceptPacket _ _ = result at haccepted hext htracks
    have haccept : result.accept = true := by
      rw [← hresult]
      rfl
    have hprocessed : d.stats.processPacket (sent e).extseqnr d.applyprobation = result := by
      rw [hsent, h.onProbation.applyprobation]
      exact haccepted
    have hstored := storePacket_packetlist sent e
      (d := { d with stats := result.stats, validated := true }) (by simp) h.packetlist
      (fun b hb => hwide (h.low b hb)) (hwide he)
    rw [numbered] at hstored
    rw [processRtpPacket_eq hprocessed, keepsPacket, haccept, Bool.true_or, if_pos rfl, hext,
      Bool.or_true, hstored]
    exact ⟨rfl, htracks, rfl, fun b hb => hwide (hall b hb)⟩
  · refine Or.inr ⟨hnot, ?_⟩
    have hprocessed : d.stats.processPacket (sent e).extseqnr d.applyprobation =
        ⟨s', (UInt16.ofNat e).toUInt32, false, true⟩ := by
      rw [hsent, h.onProbation.applyprobation]
      exact hremembered
    have hshort : d.packetlist.length ≠ maxProbationPackets := by
      rw [h.packetlist, List.length_map, Finset.length_sort]
      exact Nat.ne_of_lt hroom
    have hstored := storePacket_packetlist sent e (d := { d with stats := s' })
      (fun hfull => hshort hfull.2) h.packetlist (fun b hb => hwide (h.low b hb)) (hwide he)
    rw [numbered] at hstored
    have hkept : keepsPacket d.probationtype
        ⟨s', (UInt16.ofNat e).toUInt32, false, true⟩ = true := by
      rw [keepsPacket, h.stores]
      rfl
    rw [processRtpPacket_eq hprocessed, if_pos hkept, hseq]
    dsimp only
    rw [Bool.or_false, hstored]
    exact ⟨⟨h.onProbation.applied, h.onProbation.validated, hdata, hrecent⟩, h.stores,
      hcycles.trans h.numcycles, rfl, hall, remember_low he h.recentLow⟩

private theorem foldl_max_mem (m : Nat) (l : List Nat) : l.foldl max m ∈ m :: l := by
  induction l generalizing m with
  | nil => exact List.mem_singleton_self m
  | cons e l ih =>
      rcases List.mem_cons.mp (ih (max m e)) with hself | hmem
      · rw [List.foldl_cons, hself]
        rcases Nat.le_total m e with hle | hle
        · rw [Nat.max_eq_right hle]
          simp
        · rw [Nat.max_eq_left hle]
          simp
      · exact List.mem_cons_of_mem _ (List.mem_cons_of_mem _ hmem)

/-- Packets that wait are read in their order once three in a row have validated the source. -/
theorem Waits.receive {start : List Nat} (h : Waits sent d recent es) (hsent : Carries sent)
    (hlow : ∀ e ∈ start, e < lastSeqnr) (hroom : es.card + start.length ≤ maxProbationPackets)
    (hnear : ∀ a ∈ start, ∀ b ∈ start, 2 * a ≤ 2 * b + seqCycle)
    (hthree : HasThree (recent ++ start.map UInt16.ofNat)) :
    ∃ m ∈ start, Holds sent (d.receive (start.map sent)) m (es ∪ start.toFinset) := by
  induction start generalizing d recent es with
  | nil =>
      rw [List.map_nil, List.append_nil] at hthree
      exact absurd hthree (not_hasThree_recent h.onProbation.recent)
  | cons e start ih =>
      have he := hlow e (List.mem_cons_self ..)
      rw [List.length_cons] at hroom
      rw [List.toFinset_cons, Finset.union_insert, ← Finset.insert_union]
      rcases h.step hsent he (by omega) with ⟨-, hholds⟩ | ⟨hnot, hwaits⟩
      · have hcycle {b : Nat} (hb : b < lastSeqnr) : b / seqCycle = 0 :=
          Nat.div_eq_of_lt (Nat.lt_succ_of_lt hb)
        have hreach : Reaches seqCycle e start := by
          apply reaches_of_near
          · intro b hb
            rw [hcycle (hlow b (List.mem_cons_of_mem _ hb)), hcycle he]
          · exact fun a ha b hb => hnear a ha b (List.mem_cons_of_mem _ hb)
        refine ⟨start.foldl max e, ?_, hholds.receive hsent hreach ?_⟩
        · exact foldl_max_mem e start
        · intro b hb
          have hb := hlow b (List.mem_cons_of_mem _ hb)
          simp only [lastSeqnr] at hb
          omega
      · rw [List.map_cons, hasThree_remember h.onProbation.recent hnot] at hthree
        have hcard := Finset.card_insert_le e es
        obtain ⟨m, hm, hholds⟩ := ih hwaits (fun b hb => hlow b (List.mem_cons_of_mem _ hb))
          (by omega)
          (fun a ha b hb => hnear a (List.mem_cons_of_mem _ ha) b (List.mem_cons_of_mem _ hb)) hthree
        exact ⟨m, List.mem_cons_of_mem _ hm, hholds⟩

/-- A source that has just been created. -/
def SourceData.fresh : SourceData := ⟨.probationStore, {}, false, []⟩

theorem takePackets_waiting (h : d.validated = false) : d.takePackets = ([], d) := by
  have hnext : d.getNextPacket = none := by
    rw [SourceData.getNextPacket, if_pos h]
  rw [SourceData.takePackets]
  split
  case h_1 => rfl
  case h_2 hp =>
    rw [hnext] at hp
    cases hp

end GMProxy.Jrtplib
