import GMProxy.Jrtplib.Sources

/-!
# Sources do not disturb one another

What a session gives for a number is what a single source would give for the packets of that number
from the first address that used it.
-/

namespace GMProxy.Jrtplib

open KeyTable

variable {comesFromThisTransmitter : RtpIPv4Address → Bool} {sources : Sources} {k csrc : UInt32}
  {e : SourceEntry} {rtppack : ParsedPacket} {senderaddress a : SenderAddress}

private theorem nodup_add {t : Sources} (h : find k t = none) (hkeys : (keys t).Nodup) :
    (keys (t ++ [(k, e)])).Nodup := by
  rw [keys, List.map_append, ← keys]
  apply List.Nodup.append hkeys (List.nodup_singleton k)
  rw [List.disjoint_singleton]
  exact find_eq_none.mp h

private theorem nodup_processCsrc (hkeys : (keys sources).Nodup) :
    (keys (sources.processCsrc senderaddress csrc)).Nodup := by
  unfold Sources.processCsrc
  split
  case h_1 hnone => exact nodup_add hnone hkeys
  case h_2 => rwa [keys_modify]

private theorem nodup_processCsrcs {csrcs : List UInt32} (hkeys : (keys sources).Nodup) :
    (keys (csrcs.foldl (Sources.processCsrc senderaddress) sources)).Nodup := by
  induction csrcs generalizing sources with
  | nil => exact hkeys
  | cons csrc csrcs ih => exact ih (nodup_processCsrc hkeys)

private theorem nodup_processChecked (hkeys : (keys sources).Nodup) :
    (keys (sources.processChecked rtppack senderaddress e)).Nodup := by
  unfold Sources.processChecked
  dsimp only
  split
  · apply nodup_processCsrcs
    rwa [keys_modify]
  · rwa [keys_modify]

theorem nodup_processRtpPacket (hkeys : (keys sources).Nodup) :
    (keys (sources.processRtpPacket rtppack senderaddress)).Nodup := by
  unfold Sources.processRtpPacket
  split
  case h_1 hnone => exact nodup_processChecked (nodup_add hnone hkeys)
  case h_2 =>
    dsimp only
    split
    · rwa [keys_modify]
    · exact nodup_processChecked hkeys

private theorem find_processCsrc_ne (h : csrc ≠ k) :
    find k (sources.processCsrc senderaddress csrc) = find k sources := by
  unfold Sources.processCsrc
  split
  · exact find_append_ne h
  · exact find_modify_ne h

private theorem find_processCsrcs {csrcs : List UInt32} (h : k ∉ csrcs) :
    find k (csrcs.foldl (Sources.processCsrc senderaddress) sources) = find k sources := by
  induction csrcs generalizing sources with
  | nil => rfl
  | cons csrc csrcs ih =>
      rw [List.mem_cons, not_or] at h
      rw [List.foldl_cons, ih h.2, find_processCsrc_ne (Ne.symm h.1)]

private theorem find_processChecked_ne (hssrc : rtppack.ssrc ≠ k) (hcsrcs : k ∉ rtppack.csrcs) :
    find k (sources.processChecked rtppack senderaddress e) = find k sources := by
  unfold Sources.processChecked
  dsimp only
  split
  · rw [find_processCsrcs hcsrcs, find_modify_ne hssrc]
  · exact find_modify_ne hssrc

/-- A packet of another source leaves a source as it is. -/
theorem find_processRtpPacket_ne (hssrc : rtppack.ssrc ≠ k) (hcsrcs : k ∉ rtppack.csrcs) :
    find k (sources.processRtpPacket rtppack senderaddress) = find k sources := by
  unfold Sources.processRtpPacket
  split
  · rw [find_processChecked_ne hssrc hcsrcs, find_append_ne hssrc]
  · dsimp only
    split
    · exact find_modify_ne hssrc
    · exact find_processChecked_ne hssrc hcsrcs

private theorem find_processChecked_self {found : SourceEntry}
    (hfound : find rtppack.ssrc sources = some found) (hcsrcs : rtppack.ssrc ∉ rtppack.csrcs) :
    find rtppack.ssrc (sources.processChecked rtppack senderaddress e) =
      some (e.processRtpPacket rtppack) := by
  unfold Sources.processChecked
  dsimp only
  split
  · rw [find_processCsrcs hcsrcs, find_modify_self, hfound]
    rfl
  · rw [find_modify_self, hfound]
    rfl

/-- The first packet of a number creates its source and binds it to the sender. -/
theorem find_processRtpPacket_new (hnone : find rtppack.ssrc sources = none)
    (hcsrcs : rtppack.ssrc ∉ rtppack.csrcs) :
    find rtppack.ssrc (sources.processRtpPacket rtppack senderaddress) =
      some ({ SourceEntry.created with rtpaddr := some senderaddress }.processRtpPacket rtppack) := by
  unfold Sources.processRtpPacket
  rw [hnone]
  have hfound : find rtppack.ssrc (sources ++ [(rtppack.ssrc,
      { SourceEntry.created with rtpaddr := some senderaddress })]) =
      some { SourceEntry.created with rtpaddr := some senderaddress } := by
    rw [find_append_of_none hnone, find_cons_self]
  exact find_processChecked_self hfound hcsrcs

private theorem checkCollision_bound (h : e.rtpaddr = some a) :
    e.checkCollision senderaddress = (e, decide (senderaddress ≠ a)) := by
  unfold SourceEntry.checkCollision
  rw [h]
  cases a with
  | none => rfl
  | some addr =>
      dsimp only
      congr 1
      cases senderaddress with
      | none => simp [RtpIPv4Address.isSameAddress]
      | some other =>
          obtain ⟨ip, port⟩ := addr
          obtain ⟨ip', port'⟩ := other
          simp [RtpIPv4Address.isSameAddress, -not_and, not_and_or]

/-- A bound source takes the packets of its sender and no others. -/
theorem find_processRtpPacket_bound (hfound : find rtppack.ssrc sources = some e)
    (hbound : e.rtpaddr = some a) (hcsrcs : rtppack.ssrc ∉ rtppack.csrcs) :
    find rtppack.ssrc (sources.processRtpPacket rtppack senderaddress) =
      some (if senderaddress = a then e.processRtpPacket rtppack else e) := by
  unfold Sources.processRtpPacket
  rw [hfound]
  dsimp only
  rw [checkCollision_bound hbound]
  by_cases hsame : senderaddress = a
  · rw [if_neg (by simp [hsame]), if_pos hsame]
    exact find_processChecked_self hfound hcsrcs
  · rw [if_pos (by simp [hsame]), if_neg hsame, find_modify_self, hfound]
    rfl

variable {d : SourceData} {packs : List (ParsedPacket × SenderAddress)}

/-- The RTP packets among datagrams, with their senders. -/
def rtpPackets (comesFromThisTransmitter : RtpIPv4Address → Bool) (datagrams : List Datagram) :
    List (ParsedPacket × SenderAddress) :=
  datagrams.filterMap fun rawpack =>
    match parseRawPacket true rawpack.data with
    | .parsed rtppack => some (rtppack, senderOf comesFromThisTransmitter rawpack.senderaddress)
    | _ => none

/-- The packets of a number from one sender. -/
def packetsFrom (k : UInt32) (a : SenderAddress) (packs : List (ParsedPacket × SenderAddress)) :
    List ParsedPacket :=
  (packs.filter fun p => p.1.ssrc = k ∧ p.2 = a).map Prod.fst

/-- The first packet of a number, if there is one, comes from the sender. -/
def FirstFrom (k : UInt32) (a : SenderAddress) (packs : List (ParsedPacket × SenderAddress)) : Prop :=
  ∀ p ∈ packs.find? fun p => p.1.ssrc = k, p.2 = a

instance (k : UInt32) (a : SenderAddress) (packs : List (ParsedPacket × SenderAddress)) :
    Decidable (FirstFrom k a packs) :=
  inferInstanceAs (Decidable (∀ p ∈ packs.find? fun p => p.1.ssrc = k, p.2 = a))

/-- What the table has of the sender with a number: nothing yet, or a source bound to it. -/
def Bound (k : UInt32) (a : SenderAddress) (sources : Sources) (d : SourceData) : Prop :=
  (find k sources = none ∧ d = .fresh) ∨
    ∃ e, find k sources = some e ∧ e.rtpaddr = some a ∧ e.data = d

theorem processRawPackets_eq (sources : Sources) (datagrams : List Datagram) :
    datagrams.foldl (Sources.processRawPacket comesFromThisTransmitter) sources =
      (rtpPackets comesFromThisTransmitter datagrams).foldl
        (fun (s : Sources) p => s.processRtpPacket p.1 p.2) sources := by
  induction datagrams generalizing sources with
  | nil => rfl
  | cons rawpack datagrams ih =>
      rw [List.foldl_cons, ih]
      unfold rtpPackets Sources.processRawPacket
      rw [List.filterMap_cons]
      cases parseRawPacket true rawpack.data <;> rfl

private theorem Bound.step (h : Bound k a sources d) (hcsrcs : k ∉ rtppack.csrcs)
    (hfirst : find k sources = none → rtppack.ssrc = k → senderaddress = a) :
    Bound k a (sources.processRtpPacket rtppack senderaddress)
      (if rtppack.ssrc = k ∧ senderaddress = a then (d.processRtpPacket rtppack).1 else d) := by
  by_cases hssrc : rtppack.ssrc = k
  · subst hssrc
    rcases h with ⟨hnone, rfl⟩ | ⟨e, hfound, hbound, rfl⟩
    · rw [if_pos ⟨rfl, hfirst hnone rfl⟩]
      refine Or.inr ⟨_, find_processRtpPacket_new hnone hcsrcs, ?_, rfl⟩
      rw [hfirst hnone rfl]
      rfl
    · refine Or.inr ⟨_, find_processRtpPacket_bound hfound hbound hcsrcs, ?_, ?_⟩
      · split
        · exact hbound
        · exact hbound
      · by_cases hsame : senderaddress = a
        · rw [if_pos hsame, if_pos ⟨rfl, hsame⟩]
          rfl
        · rw [if_neg hsame, if_neg (fun hboth => hsame hboth.2)]
  · rw [if_neg (fun hboth => hssrc hboth.1)]
    unfold Bound
    rw [find_processRtpPacket_ne hssrc hcsrcs]
    exact h

private theorem Bound.found (h : Bound k a sources d) (hcsrcs : k ∉ rtppack.csrcs)
    (hssrc : rtppack.ssrc = k) :
    find k (sources.processRtpPacket rtppack senderaddress) ≠ none := by
  subst hssrc
  rcases h with ⟨hnone, -⟩ | ⟨e, hfound, hbound, -⟩
  · rw [find_processRtpPacket_new hnone hcsrcs]
    exact Option.some_ne_none _
  · rw [find_processRtpPacket_bound hfound hbound hcsrcs]
    exact Option.some_ne_none _

private theorem FirstFrom.tail {p : ParsedPacket × SenderAddress} (h : FirstFrom k a (p :: packs))
    (hssrc : p.1.ssrc ≠ k) : FirstFrom k a packs := by
  intro q hq
  apply h q
  rw [List.find?_cons_of_neg (by simpa using hssrc)]
  exact hq

private theorem Bound.run {rest : List (ParsedPacket × SenderAddress)} (h : Bound k a sources d)
    (hcsrcs : ∀ p ∈ packs, k ∉ p.1.csrcs)
    (hfirst : find k sources = none → FirstFrom k a (packs ++ rest)) :
    let after := packs.foldl (fun (s : Sources) p => s.processRtpPacket p.1 p.2) sources
    Bound k a after (d.receive (packetsFrom k a packs)) ∧
      (find k after = none → FirstFrom k a rest) := by
  induction packs generalizing sources d with
  | nil => exact ⟨h, hfirst⟩
  | cons p packs ih =>
      have hp := hcsrcs p (List.mem_cons_self ..)
      have hnow : find k sources = none → p.1.ssrc = k → p.2 = a := by
        intro hnone hssrc
        apply hfirst hnone p
        rw [List.cons_append, List.find?_cons_of_pos (by simpa using hssrc)]
        rfl
      have hlater : find k (sources.processRtpPacket p.1 p.2) = none →
          FirstFrom k a (packs ++ rest) := by
        intro hafter
        by_cases hssrc : p.1.ssrc = k
        · exact absurd hafter (h.found hp hssrc)
        · rw [find_processRtpPacket_ne hssrc hp] at hafter
          exact (hfirst hafter).tail hssrc
      have hrest := ih (h.step hp hnow) (fun q hq => hcsrcs q (List.mem_cons_of_mem _ hq)) hlater
      have hpackets : d.receive (packetsFrom k a (p :: packs)) =
          (if p.1.ssrc = k ∧ p.2 = a then (d.processRtpPacket p.1).1 else d).receive
            (packetsFrom k a packs) := by
        rw [packetsFrom, List.filter_cons]
        by_cases hown : p.1.ssrc = k ∧ p.2 = a
        · rw [if_pos (by simpa using hown), if_pos hown]
          rfl
        · rw [if_neg (by simpa using hown), if_neg hown]
          rfl
      rw [hpackets]
      exact hrest

private theorem nodup_run (packs : List (ParsedPacket × SenderAddress)) (hkeys : (keys sources).Nodup) :
    (keys (packs.foldl (fun (s : Sources) p => s.processRtpPacket p.1 p.2) sources)).Nodup := by
  induction packs generalizing sources with
  | nil => exact hkeys
  | cons p packs ih => exact ih (nodup_processRtpPacket hkeys)

theorem nodup_processRawPackets (comesFromThisTransmitter : RtpIPv4Address → Bool)
    (datagrams : List Datagram) (hkeys : (keys sources).Nodup) :
    (keys (datagrams.foldl (Sources.processRawPacket comesFromThisTransmitter) sources)).Nodup := by
  rw [processRawPackets_eq]
  exact nodup_run _ hkeys

private theorem takePackets_fresh : SourceData.fresh.takePackets = ([], .fresh) :=
  takePackets_waiting rfl

theorem keys_takeData (sources : Sources) : keys sources.takeData.2 = keys sources := by
  rw [keys, keys, Sources.takeData, List.map_map]
  rfl

private theorem Bound.takeData (h : Bound k a sources d) (hkeys : (keys sources).Nodup) :
    (find k sources.takeData.1).getD [] = d.takePackets.1 ∧
      Bound k a sources.takeData.2 d.takePackets.2 := by
  have hmapped : (keys (sources.map fun source =>
      (source.1, source.2.data.takePackets.1))).Nodup := by
    rw [keys, List.map_map]
    exact hkeys
  have hdata : find k sources.takeData.2 = (find k sources).map fun e =>
      { e with data := e.data.takePackets.2 } :=
    find_map fun e : SourceEntry => { e with data := e.data.takePackets.2 }
  have htaken : find k sources.takeData.1 =
      ((find k sources).map fun e => e.data.takePackets.1).filter fun taken => taken ≠ [] := by
    rw [Sources.takeData, find_filter hmapped, find_map fun e : SourceEntry => e.data.takePackets.1]
  rcases h with ⟨hnone, rfl⟩ | ⟨e, hfound, hbound, rfl⟩
  · rw [hnone] at hdata htaken
    rw [htaken, takePackets_fresh]
    exact ⟨rfl, Or.inl ⟨hdata, rfl⟩⟩
  · rw [hfound] at hdata htaken
    refine ⟨?_, Or.inr ⟨_, hdata, hbound, rfl⟩⟩
    rw [htaken, Option.map_some, Option.filter_some]
    split
    · rfl
    case isFalse hempty =>
      have hnothing : e.data.takePackets.1 = [] := by simpa using hempty
      rw [hnothing]
      rfl

private theorem rounds_bound {batches : List (List Datagram)} (h : Bound k a sources d)
    (hkeys : (keys sources).Nodup)
    (hfirst : find k sources = none →
      FirstFrom k a (rtpPackets comesFromThisTransmitter batches.flatten))
    (hcsrcs : ∀ p ∈ rtpPackets comesFromThisTransmitter batches.flatten, k ∉ p.1.csrcs) :
    (sources.rounds comesFromThisTransmitter batches).map (fun taken => (find k taken).getD []) =
      readings d (batches.map fun batch =>
        packetsFrom k a (rtpPackets comesFromThisTransmitter batch)) := by
  induction batches generalizing sources d with
  | nil => rfl
  | cons batch batches ih =>
      have hsplit : rtpPackets comesFromThisTransmitter (batch :: batches).flatten =
          rtpPackets comesFromThisTransmitter batch ++
            rtpPackets comesFromThisTransmitter batches.flatten := by
        rw [List.flatten_cons, rtpPackets, List.filterMap_append]
        rfl
      rw [hsplit] at hfirst hcsrcs
      obtain ⟨hbound, hlater⟩ :=
        h.run (fun p hp => hcsrcs p (List.mem_append_left _ hp)) hfirst
      have hafter := nodup_processRawPackets comesFromThisTransmitter batch hkeys
      rw [← processRawPackets_eq] at hbound hlater
      obtain ⟨htaken, hnext⟩ := hbound.takeData hafter
      rw [List.map_cons, readings, ← htaken, Sources.rounds, List.map_cons]
      congr 1
      apply ih hnext
      · rwa [keys_takeData]
      · intro hnone
        apply hlater
        rwa [find_eq_none, keys_takeData, ← find_eq_none] at hnone
      · exact fun p hp => hcsrcs p (List.mem_append_right _ hp)

/-- In every round a session gives for a number what a source of its own would give for the packets
of the sender that used the number first, whatever arrives from others in between. The packets are RTP
packets: RTCP packets and timeouts, which also touch the table, are not modelled. -/
theorem rounds_isolated (comesFromThisTransmitter : RtpIPv4Address → Bool) (sources : Sources)
    (k : UInt32) (a : SenderAddress) (batches : List (List Datagram))
    (hkeys : (keys sources).Nodup) (hnew : find k sources = none)
    (hfirst : FirstFrom k a (rtpPackets comesFromThisTransmitter batches.flatten))
    (hcsrcs : ∀ p ∈ rtpPackets comesFromThisTransmitter batches.flatten, k ∉ p.1.csrcs) :
    (sources.rounds comesFromThisTransmitter batches).map (fun taken => (find k taken).getD []) =
      readings .fresh (batches.map fun batch =>
        packetsFrom k a (rtpPackets comesFromThisTransmitter batch)) :=
  rounds_bound (Or.inl ⟨hnew, rfl⟩) hkeys (fun _ => hfirst) hcsrcs

/-- A packet of one byte of source 9. -/
private def smallDatagram (seqnr : UInt8) (port : UInt16) : Datagram :=
  ⟨[0x80, 96, 0, seqnr, 0, 0, 0, 0, 0, 0, 0, 9, seqnr], ⟨1, port⟩⟩

private def smallParsed (seqnr : UInt8) : ParsedPacket :=
  ⟨false, 0, 96, seqnr.toUInt32, 0, 9, none, (smallDatagram seqnr 0).data, [seqnr]⟩

/-- The second sender uses the number of the first. -/
theorem rounds_isolated_foreign :
    (Sources.rounds (fun _ => false) []
        [[smallDatagram 5 7000, smallDatagram 9 8000, smallDatagram 6 7000],
          [smallDatagram 10 8000, smallDatagram 7 7000]]).map
          (fun taken => (find 9 taken).getD []) =
      readings .fresh [[smallParsed 5, smallParsed 6], [smallParsed 7]] :=
  rounds_isolated (fun _ => false) [] 9 (some ⟨1, 7000⟩) _ (by decide) rfl (by decide) (by decide)

end GMProxy.Jrtplib
