import GMProxy.Jrtplib.SourceData

/-!
# Probation

A new source is validated, and gives packets to the program, when three packets with consecutive
sequence numbers have arrived one after the other.
-/

namespace GMProxy.Jrtplib

open Serial

/-- The last packets as far as they follow one another. -/
inductive Recent : RtpSourceStats → List UInt16 → Prop where
  | none {s : RtpSourceStats} (h : s.probation = 0) : Recent s []
  | one {s : RtpSourceStats} (h : s.probation = 2) : Recent s [s.prevseqnr]
  | two {s : RtpSourceStats} {x : UInt16} (h : s.probation = 1) (hx : s.prevseqnr = x + 1) :
      Recent s [x, x + 1]

/-- The packets that are remembered when `y` does not end probation. -/
def remember (y : UInt16) : List UInt16 → List UInt16
  | [x] => if y = x + 1 then [x, y] else [y]
  | _ => [y]

/-- Three consecutive packets one after the other. -/
def HasThree (seqs : List UInt16) : Prop := ∃ x : UInt16, [x, x + 1, x + 2] <:+: seqs

instance (seqs : List UInt16) : Decidable (HasThree seqs) :=
  decidable_of_iff (∃ x ∈ seqs, [x, x + 1, x + 2] <:+: seqs)
    ⟨fun ⟨x, _, hx⟩ => ⟨x, hx⟩, fun ⟨x, hx⟩ => ⟨x, hx.subset (List.mem_cons_self ..), hx⟩⟩

variable {s : RtpSourceStats} {recent : List UInt16} {y : UInt16}

private theorem toUInt32_inj {x y : UInt16} : x.toUInt32 = y.toUInt32 ↔ x = y := by
  constructor
  · intro h
    have hnat := congrArg UInt32.toNat h
    rw [UInt16.toNat_toUInt32, UInt16.toNat_toUInt32] at hnat
    exact UInt16.toNat_inj.mp hnat
  · exact congrArg UInt16.toUInt32

/-- A packet on probation either ends it, as the third of three, or is remembered. -/
theorem processPacket_probation (h : Recent s recent) (hdata : s.sentdata = false) :
    (∃ x, recent = [x, x + 1] ∧ y = x + 2 ∧ s.processPacket y.toUInt32 true =
        ({ s with prevseqnr := y, probation := 0 } : RtpSourceStats).acceptPacket y.toUInt32) ∨
      (¬ (∃ x, recent = [x, x + 1] ∧ y = x + 2) ∧
        ∃ s', s.processPacket y.toUInt32 true = ⟨s', y.toUInt32, false, true⟩ ∧
          s'.sentdata = false ∧ s'.numcycles = s.numcycles ∧ Recent s' (remember y recent)) := by
  have hback : y.toUInt32.toUInt16 = y := UInt16.toUInt16_toUInt32 y
  unfold RtpSourceStats.processPacket
  rw [if_pos hdata, if_pos rfl, hback]
  cases h with
  | none hprobation =>
      refine Or.inr ⟨fun ⟨x, hx, _⟩ => (by cases hx),
        { s with probation := rtpProbationcount, prevseqnr := y }, ?_, hdata, rfl, .one rfl⟩
      rw [if_neg (not_not_intro hprobation)]
  | one hprobation =>
      refine Or.inr ⟨fun ⟨x, hx, _⟩ => (by cases hx), ?_⟩
      by_cases hnext : s.prevseqnr + 1 = y
      · subst hnext
        refine ⟨{ s with prevseqnr := s.prevseqnr + 1, probation := 1 }, ?_, hdata, rfl, ?_⟩
        · simp [hprobation]
        · rw [remember, if_pos rfl]
          exact .two rfl rfl
      · refine ⟨{ s with probation := rtpProbationcount, prevseqnr := y }, ?_, hdata, rfl, ?_⟩
        · have hne : (s.prevseqnr + 1).toUInt32 ≠ y.toUInt32 := fun h => hnext (toUInt32_inj.mp h)
          rw [if_pos (by rw [hprobation]; decide)]
          dsimp only
          rw [if_neg hne]
        · rw [remember, if_neg (fun h => hnext h.symm)]
          exact .one rfl
  | two hprobation hx =>
      rename_i x
      have htwo : x + 1 + 1 = x + 2 := UInt16.add_assoc x 1 1
      by_cases hnext : y = x + 2
      · subst hnext
        refine Or.inl ⟨x, rfl, rfl, ?_⟩
        simp [hprobation, hx, htwo]
      · refine Or.inr ⟨?_, { s with probation := rtpProbationcount, prevseqnr := y }, ?_, hdata, rfl,
          .one rfl⟩
        · rintro ⟨z, hz, hy⟩
          rw [List.cons.injEq] at hz
          rw [hz.1] at hnext
          exact hnext hy
        · have hne : (s.prevseqnr + 1).toUInt32 ≠ y.toUInt32 := by
            rw [hx, htwo]
            exact fun h => hnext (toUInt32_inj.mp h).symm
          rw [if_pos (by rw [hprobation]; decide)]
          dsimp only
          rw [if_neg hne]

private theorem hasThree_cons {x : UInt16} {seqs : List UInt16} :
    HasThree (x :: seqs) ↔ [x + 1, x + 2] <+: seqs ∨ HasThree seqs := by
  constructor
  · rintro ⟨z, hz⟩
    rcases List.infix_cons_iff.mp hz with hfront | hinfix
    · obtain ⟨rfl, hrest⟩ := List.cons_prefix_cons.mp hfront
      exact Or.inl hrest
    · exact Or.inr ⟨z, hinfix⟩
  · rintro (hfront | ⟨z, hinfix⟩)
    · exact ⟨x, (List.cons_prefix_cons.mpr ⟨rfl, hfront⟩).isInfix⟩
    · exact ⟨z, List.infix_cons_iff.mpr (Or.inr hinfix)⟩

/-- Packets that the next one does not continue to three are forgotten. -/
theorem hasThree_remember {seqs : List UInt16} (hrecent : Recent s recent)
    (hnot : ¬ ∃ x, recent = [x, x + 1] ∧ y = x + 2) :
    HasThree (recent ++ y :: seqs) ↔ HasThree (remember y recent ++ seqs) := by
  cases hrecent with
  | none => rfl
  | one =>
      rw [remember]
      split
      case isTrue => rfl
      case isFalse hnext =>
        rw [List.cons_append, List.nil_append, hasThree_cons, List.cons_append, List.nil_append]
        apply or_iff_right
        intro hfront
        exact hnext (List.cons_prefix_cons.mp hfront).1.symm
  | two hprobation hx =>
      rename_i x
      have hnext : y ≠ x + 2 := fun h => hnot ⟨x, rfl, h⟩
      have htwo : x + 1 + 1 = x + 2 := UInt16.add_assoc x 1 1
      rw [remember, List.cons_append, List.cons_append, List.nil_append, hasThree_cons, hasThree_cons,
        List.cons_append, List.nil_append]
      · rw [or_iff_right, or_iff_right]
        · intro hfront
          rw [htwo] at hfront
          exact hnext (List.cons_prefix_cons.mp hfront).1.symm
        · intro hfront
          exact hnext (List.cons_prefix_cons.mp (List.cons_prefix_cons.mp hfront).2).1.symm
      · rintro z hz
        cases hz

theorem not_hasThree_recent (hrecent : Recent s recent) : ¬ HasThree recent := by
  rintro ⟨z, hz⟩
  have hlen := hz.length_le
  cases hrecent <;> simp at hlen

@[simp] theorem storePacket_validated (d : SourceData) (p : ParsedPacket) :
    (d.storePacket p).1.validated = d.validated := by
  unfold SourceData.storePacket
  split <;> rfl

@[simp] theorem storePacket_stats (d : SourceData) (p : ParsedPacket) :
    (d.storePacket p).1.stats = d.stats := by
  unfold SourceData.storePacket
  split <;> rfl

@[simp] theorem storePacket_probationtype (d : SourceData) (p : ParsedPacket) :
    (d.storePacket p).1.probationtype = d.probationtype := by
  unfold SourceData.storePacket
  split <;> rfl

/-- A source that is not yet validated. -/
structure OnProbation (d : SourceData) (recent : List UInt16) : Prop where
  applied : d.probationtype ≠ .noProbation
  validated : d.validated = false
  sentdata : d.stats.sentdata = false
  recent : Recent d.stats recent

variable {d : SourceData} {rtppack : ParsedPacket}

private theorem processRtpPacket_stats :
    (d.processRtpPacket rtppack).1.stats =
      (d.stats.processPacket rtppack.extseqnr d.applyprobation).stats := by
  rw [processRtpPacket_eq rfl]
  split
  · rw [storePacket_stats]
  · rfl

private theorem processRtpPacket_probationtype :
    (d.processRtpPacket rtppack).1.probationtype = d.probationtype := by
  rw [processRtpPacket_eq rfl]
  split
  · rw [storePacket_probationtype]
  · rfl

private theorem processRtpPacket_validated :
    (d.processRtpPacket rtppack).1.validated =
      (d.validated || (d.stats.processPacket rtppack.extseqnr d.applyprobation).accept) := by
  rw [processRtpPacket_eq rfl]
  split
  case isTrue => rw [storePacket_validated]
  case isFalse hkept =>
    rw [keepsPacket, Bool.or_eq_true, not_or, Bool.not_eq_true] at hkept
    rw [hkept.1, Bool.or_false]

theorem receive_validated {packs : List ParsedPacket} (h : d.validated = true) :
    (d.receive packs).validated = true := by
  induction packs generalizing d with
  | nil => exact h
  | cons p packs ih =>
      apply ih
      rw [processRtpPacket_validated, h, Bool.true_or]

theorem OnProbation.applyprobation (h : OnProbation d recent) : d.applyprobation = true := by
  rw [SourceData.applyprobation, if_neg (by rw [h.validated]; decide), if_neg h.applied]

private theorem OnProbation.step (h : OnProbation d recent) (hseq : rtppack.extseqnr = y.toUInt32) :
    ((∃ x, recent = [x, x + 1] ∧ y = x + 2) ∧ (d.processRtpPacket rtppack).1.validated = true) ∨
      (¬ (∃ x, recent = [x, x + 1] ∧ y = x + 2) ∧
        OnProbation (d.processRtpPacket rtppack).1 (remember y recent)) := by
  rcases processPacket_probation (y := y) h.recent h.sentdata with
    ⟨x, hx, hy, haccepted⟩ | ⟨hnot, s', hremembered, hdata, -, hrecent⟩
  · refine Or.inl ⟨⟨x, hx, hy⟩, ?_⟩
    rw [processRtpPacket_validated, h.applyprobation, hseq, haccepted]
    exact Bool.or_true _
  · refine Or.inr ⟨hnot, ?_, ?_, ?_, ?_⟩
    · rw [processRtpPacket_probationtype]
      exact h.applied
    · rw [processRtpPacket_validated, h.applyprobation, hseq, hremembered, h.validated]
      rfl
    · rw [processRtpPacket_stats, h.applyprobation, hseq, hremembered]
      exact hdata
    · rw [processRtpPacket_stats, h.applyprobation, hseq, hremembered]
      exact hrecent

private theorem OnProbation.validated_iff {packs : List ParsedPacket} (h : OnProbation d recent)
    (hseq : ∀ p ∈ packs, p.extseqnr < 65536) :
    (d.receive packs).validated = true ↔
      HasThree (recent ++ packs.map fun p => p.extseqnr.toUInt16) := by
  induction packs generalizing d recent with
  | nil =>
      rw [List.map_nil, List.append_nil]
      apply iff_of_false
      · rw [SourceData.receive, List.foldl_nil, h.validated]
        decide
      · exact not_hasThree_recent h.recent
  | cons p packs ih =>
      have hp : p.extseqnr = p.extseqnr.toUInt16.toUInt32 := by
        apply UInt32.toNat_inj.mp
        have hsmall : p.extseqnr.toNat < 65536 := UInt32.lt_iff_toNat_lt.mp (hseq p (List.mem_cons_self ..))
        rw [UInt16.toNat_toUInt32, UInt32.toNat_toUInt16, Nat.mod_eq_of_lt hsmall]
      rw [List.map_cons, SourceData.receive, List.foldl_cons]
      rcases h.step hp with ⟨⟨x, hx, hy⟩, hvalidated⟩ | ⟨hnot, hnext⟩
      · apply iff_of_true
        · exact receive_validated hvalidated
        · refine ⟨x, [], packs.map fun p => p.extseqnr.toUInt16, ?_⟩
          rw [hx, hy]
          rfl
      · rw [hasThree_remember h.recent hnot]
        exact ih hnext fun q hq => hseq q (List.mem_cons_of_mem _ hq)

/-- A source is validated exactly if three consecutive packets have arrived one after the other. -/
theorem receive_validated_iff (probationtype : ProbationType) (happlied : probationtype ≠ .noProbation)
    (packs : List ParsedPacket) (hseq : ∀ p ∈ packs, p.extseqnr < 65536) :
    (SourceData.receive ⟨probationtype, {}, false, []⟩ packs).validated = true ↔
      HasThree (packs.map fun p => p.extseqnr.toUInt16) := by
  have hstart : OnProbation ⟨probationtype, {}, false, []⟩ [] := ⟨happlied, rfl, rfl, .none rfl⟩
  rw [hstart.validated_iff hseq, List.nil_append]

/-- Of the packets 5, 7, 6, 7, 8 the last three follow one another. -/
theorem receive_validated_retried :
    (SourceData.receive ⟨.probationDiscard, {}, false, []⟩
      ([5, 7, 6, 7, 8].map smallPacket)).validated = true :=
  (receive_validated_iff .probationDiscard (by decide) _ (by decide)).mpr (by decide)

end GMProxy.Jrtplib
