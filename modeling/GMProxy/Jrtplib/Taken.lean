import GMProxy.Jrtplib.SourceIsolation

/-!
# What the queues of a session hold

A rule for what holds of the data of every source in the table, and with it that the queues hold only
packets that have arrived for their sources.
-/

namespace GMProxy.Jrtplib

open KeyTable

variable {d : SourceData} {rtppack p : ParsedPacket} {sources : Sources} {k : UInt32}
  {senderaddress : SenderAddress} {P : UInt32 → SourceData → Prop}

/-- `P` holds of the data of every source. -/
def EachData (P : UInt32 → SourceData → Prop) (sources : Sources) : Prop :=
  ∀ source ∈ sources, P source.1 source.2.data

theorem EachData.find (h : EachData P sources) {e : SourceEntry} (hfound : find k sources = some e) :
    P k e.data := by
  induction sources with
  | nil => cases hfound
  | cons source sources ih =>
      obtain ⟨key, a⟩ := source
      by_cases hkey : key = k
      · subst hkey
        rw [find_cons_self] at hfound
        cases hfound
        exact h _ (List.mem_cons_self ..)
      · rw [find_cons_ne hkey] at hfound
        exact ih (fun source hsource => h source (List.mem_cons_of_mem _ hsource)) hfound

private theorem EachData.append {e : SourceEntry} (h : EachData P sources) (he : P k e.data) :
    EachData P (sources ++ [(k, e)]) := by
  intro source hsource
  rcases List.mem_append.mp hsource with hold | hnew
  · exact h source hold
  · rw [List.mem_singleton.mp hnew]
    exact he

private theorem EachData.modify {e : SourceEntry} (h : EachData P sources) (he : P k e.data) :
    EachData P (modify k (fun _ => e) sources) := by
  induction sources with
  | nil =>
      intro source hsource
      cases hsource
  | cons source sources ih =>
      obtain ⟨key, a⟩ := source
      have hrest : EachData P sources := fun source hsource =>
        h source (List.mem_cons_of_mem _ hsource)
      intro other hother
      rw [KeyTable.modify] at hother
      split at hother
      case isTrue hkey =>
        rcases List.mem_cons.mp hother with rfl | hother
        · rw [hkey]
          exact he
        · exact hrest other hother
      case isFalse hkey =>
        rcases List.mem_cons.mp hother with rfl | hother
        · exact h _ (List.mem_cons_self ..)
        · exact ih hrest other hother

private theorem checkCollision_data (e : SourceEntry) (senderaddress : SenderAddress) :
    (e.checkCollision senderaddress).1.data = e.data := by
  unfold SourceEntry.checkCollision
  split
  · split
    · rfl
    · split <;> rfl
    · split <;> rfl
  · rfl
  · rfl

/-- What a new source satisfies, what does not depend on validation and what a packet keeps for its
own source, every packet keeps for all sources. -/
theorem EachData.processRtpPacket (h : EachData P sources) (hfresh : ∀ k, P k .fresh)
    (hcsrc : ∀ k d, P k d → P k { d with validated := true })
    (hpacket : ∀ d, P rtppack.ssrc d → P rtppack.ssrc (d.processRtpPacket rtppack).1) :
    EachData P (sources.processRtpPacket rtppack senderaddress) := by
  have hcsrcs (csrcs : List UInt32) {sources : Sources} (h : EachData P sources) :
      EachData P (csrcs.foldl (Sources.processCsrc senderaddress) sources) := by
    induction csrcs generalizing sources with
    | nil => exact h
    | cons csrc csrcs ih =>
        apply ih
        unfold Sources.processCsrc
        cases hfound : KeyTable.find csrc sources with
        | none => exact h.append (hcsrc _ _ (hfresh csrc))
        | some csrcdat =>
            have hdata := h.find hfound
            rw [← checkCollision_data csrcdat senderaddress] at hdata
            dsimp only
            generalize csrcdat.checkCollision senderaddress = result at hdata ⊢
            obtain ⟨checked, collision⟩ := result
            apply h.modify
            cases collision with
            | true => exact hdata
            | false => exact hcsrc _ _ hdata
  have hchecked {sources : Sources} {e : SourceEntry} (h : EachData P sources)
      (he : P rtppack.ssrc e.data) :
      EachData P (sources.processChecked rtppack senderaddress e) := by
    unfold Sources.processChecked
    dsimp only
    split
    · exact hcsrcs _ (h.modify (hpacket _ he))
    · exact h.modify (hpacket _ he)
  unfold Sources.processRtpPacket
  cases hfound : KeyTable.find rtppack.ssrc sources with
  | none => exact hchecked (h.append (hfresh _)) (hfresh _)
  | some srcdat =>
      have hdata := h.find hfound
      rw [← checkCollision_data srcdat senderaddress] at hdata
      dsimp only
      split
      · exact h.modify hdata
      · exact hchecked h hdata

private theorem mem_placePacket {l : List ParsedPacket} (h : p ∈ (placePacket rtppack l).1) :
    p = rtppack ∨ p ∈ l := by
  induction l with
  | nil => exact Or.inl (List.mem_singleton.mp h)
  | cons q l ih =>
      rw [placePacket] at h
      split at h
      · rcases List.mem_cons.mp h with rfl | h
        · exact Or.inr (List.mem_cons_self ..)
        · exact (ih h).imp_right (List.mem_cons_of_mem _)
      · split at h
        · exact List.mem_cons.mp h
        · exact Or.inr h

private theorem mem_storePacket (h : p ∈ (d.storePacket rtppack).1.packetlist) :
    p = rtppack ∨ p ∈ d.packetlist := by
  unfold SourceData.storePacket at h
  split at h
  · exact Or.inl (List.mem_singleton.mp h)
  · rcases mem_placePacket (List.mem_reverse.mp h) with heq | hmem
    · exact Or.inl heq
    · refine Or.inr ?_
      rw [List.mem_reverse] at hmem
      split at hmem
      · exact List.mem_of_mem_tail hmem
      · exact hmem

/-- A packet in the queue was there before or is the one that has arrived, up to its number. -/
theorem mem_processRtpPacket (h : p ∈ (d.processRtpPacket rtppack).1.packetlist) :
    p ∈ d.packetlist ∨ p = { rtppack with extseqnr := p.extseqnr } := by
  rw [processRtpPacket_eq rfl] at h
  split at h
  · rcases mem_storePacket h with heq | hmem
    · refine Or.inr ?_
      rw [heq]
    · exact Or.inl hmem
  · exact Or.inl h

end GMProxy.Jrtplib
