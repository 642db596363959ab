import GMProxy.Rtp.Reassembly

/-!
# The packets of a frame on the wire

Sizes and timestamps of the packets that `sendData` makes, and what becomes of them on a link that
loses nothing.
-/

namespace GMProxy.TdRtp

open CMemory Delimited

variable {b : RtpPacketBuilder} {data : List UInt8}

private theorem sendPacket_sent (b : RtpPacketBuilder) (data : List UInt8) (offset : Nat) {len : Nat}
    (hlen : len ≤ 1280) (mark : Bool) :
    sendPacket b data offset len 96 mark 10 =
      ({ b with seqnr := b.seqnr + 1, timestamp := b.timestamp + 10 },
        [⟨96, mark, b.seqnr, b.timestamp, b.ssrc, (data.drop offset).take len⟩]) := by
  apply if_neg
  simp only [rtpDefaultPacketSize, sizeofRtpHeader]
  omega

private theorem sendPacket_refused (b : RtpPacketBuilder) (data : List UInt8) (offset : Nat)
    {size : Int} (hlow : -2 ^ 32 ≤ size) (hneg : size < 0) (mark : Bool) :
    sendPacket b data offset (toSize size) 96 mark 10 = (b, []) := by
  have hlarge := toSize_of_neg hlow hneg
  apply if_pos
  simp only [rtpDefaultPacketSize, sizeofRtpHeader]
  omega

private theorem size_range (data : List UInt8) :
    -2 ^ 31 ≤ toInt (data.length : Int) ∧ toInt (data.length : Int) < 2 ^ 31 := by
  simp only [toInt, Int.bmod]
  omega

/-- How many packets `sendData` makes of a frame whose size is `size` as an `int`. -/
def packetCount (size : Int) : Nat := if size < 0 then 0 else (size.toNat - 1) / 1280 + 1

/-- The timestamps of `count` packets from `base` on. -/
def advancing (base : UInt32) (count : Nat) : List UInt32 :=
  (List.range count).map fun i => base + UInt32.ofNat (10 * i)

private theorem advancing_succ (base : UInt32) (count : Nat) :
    advancing base (count + 1) = base :: advancing (base + 10) count := by
  have hnext (i : Nat) : base + UInt32.ofNat (10 * (i + 1)) = base + 10 + UInt32.ofNat (10 * i) := by
    rw [Nat.mul_succ, UInt32.ofNat_add, UInt32.add_comm (UInt32.ofNat (10 * i)), UInt32.add_assoc]
    rfl
  rw [advancing, List.range_succ_eq_map, List.map_cons, List.map_map, advancing]
  congr 1
  · exact UInt32.add_zero base
  · exact List.map_congr_left fun i _ => hnext i

private theorem packetCount_of_le {size : Int} (hlow : 0 ≤ size) (hone : size ≤ 1280) :
    packetCount size = 1 := by
  rw [packetCount, if_neg (by omega)]
  omega

private theorem packetCount_of_gt {size : Int} (hmore : 1280 < size) :
    packetCount size = packetCount (size - 1280) + 1 := by
  rw [packetCount, packetCount, if_neg (by omega), if_neg (by omega)]
  omega

private theorem sendLoop_timestamps (b : RtpPacketBuilder) (data : List UInt8) {leftsize : Int}
    (hlow : -2 ^ 31 ≤ leftsize) (offset : Nat) :
    (sendLoop b data leftsize offset).2.map RtpPacket.timestamp =
        advancing b.timestamp (packetCount leftsize) ∧
      (sendLoop b data leftsize offset).1.timestamp =
        b.timestamp + UInt32.ofNat (10 * packetCount leftsize) := by
  induction b, leftsize, offset using sendLoop.induct data with
  | case1 b leftsize offset hmore b' sent hsend _ _ _ ih =>
      obtain ⟨hstamps, hend⟩ := ih (by omega)
      rw [sendPacket_sent b data offset (Nat.le_refl 1280)] at hsend
      cases hsend
      rw [sendLoop, if_pos hmore, sendPacket_sent b data offset (Nat.le_refl 1280),
        packetCount_of_gt hmore, advancing_succ]
      constructor
      · simp only [List.cons_append, List.nil_append, List.map_cons, hstamps]
      · simp only [hend]
        rw [Nat.mul_succ, UInt32.ofNat_add, UInt32.add_comm (UInt32.ofNat _), UInt32.add_assoc]
        rfl
  | case2 b leftsize offset hlast =>
      rw [sendLoop, if_neg hlast]
      by_cases hneg : leftsize < 0
      · rw [sendPacket_refused b data offset (by omega) hneg, packetCount, if_pos hneg]
        exact ⟨rfl, (UInt32.add_zero b.timestamp).symm⟩
      · have hlen : toSize leftsize ≤ 1280 := by
          rw [toSize_of_nonneg (by omega) (by omega)]
          omega
        rw [sendPacket_sent b data offset hlen, packetCount_of_le (by omega) (by omega)]
        exact ⟨by rw [advancing_succ]; rfl, rfl⟩

/-- The packets of a frame carry the timestamps from the builder's on, and the builder goes on
behind them. -/
theorem sendData_timestamps (b : RtpPacketBuilder) (data : List UInt8) :
    (sendData b data).2.map RtpPacket.timestamp =
        advancing b.timestamp (packetCount (toInt data.length)) ∧
      (sendData b data).1.timestamp =
        b.timestamp + UInt32.ofNat (10 * packetCount (toInt data.length)) :=
  sendLoop_timestamps b data (size_range data).1 0

private theorem packetCount_le (data : List UInt8) : packetCount (toInt data.length) ≤ 2 ^ 21 := by
  have hhigh := (size_range data).2
  rw [packetCount]
  split <;> omega

theorem exists_timestamp_of_mem {pack : RtpPacket} (h : pack ∈ (sendData b data).2) :
    ∃ i < packetCount (toInt data.length), pack.timestamp = b.timestamp + UInt32.ofNat (10 * i) := by
  have hmem := List.mem_map_of_mem (f := RtpPacket.timestamp) h
  rw [(sendData_timestamps b data).1, advancing] at hmem
  obtain ⟨i, hi, heq⟩ := List.mem_map.mp hmem
  exact ⟨i, List.mem_range.mp hi, heq.symm⟩

theorem advance_injective (base : UInt32) {i j : Nat} (hi : i < 2 ^ 28) (hj : j < 2 ^ 28)
    (h : base + UInt32.ofNat (10 * i) = base + UInt32.ofNat (10 * j)) : i = j := by
  have hnat := congrArg UInt32.toNat ((UInt32.add_right_inj base).mp h)
  have hfits (k : Nat) (hk : k < 2 ^ 28) : (UInt32.ofNat (10 * k)).toNat = 10 * k := by
    apply UInt32.toNat_ofNat_of_lt'
    rw [UInt32.size]
    omega
  rw [hfits i hi, hfits j hj] at hnat
  omega

/-- Packets of one frame carry one timestamp, packets of consecutive frames different ones. -/
structure TimestampPerFrame (sent : List (List RtpPacket)) : Prop where
  same : ∀ packs ∈ sent, ∀ p ∈ packs, ∀ q ∈ packs, p.timestamp = q.timestamp
  differ : sent.IsChain fun packs next => ∀ p ∈ packs, ∀ q ∈ next, p.timestamp ≠ q.timestamp

private theorem sendData_same_iff (b : RtpPacketBuilder) (data : List UInt8) :
    (∀ p ∈ (sendData b data).2, ∀ q ∈ (sendData b data).2, p.timestamp = q.timestamp) ↔
      toInt data.length ≤ 1280 := by
  obtain ⟨hstamps, -⟩ := sendData_timestamps b data
  constructor
  · intro hsame
    by_contra hmore
    rw [packetCount_of_gt (by omega), advancing_succ, packetCount, if_neg (by omega),
      advancing_succ] at hstamps
    obtain ⟨p, rest, hpacks, hp, hrest⟩ := List.map_eq_cons_iff.mp hstamps
    obtain ⟨q, rest', rfl, hq, -⟩ := List.map_eq_cons_iff.mp hrest
    have heq := hsame p (by rw [hpacks]; simp) q (by rw [hpacks]; simp)
    rw [hp, hq] at heq
    have hten := advance_injective b.timestamp (i := 0) (j := 1) (by decide) (by decide)
      (by rw [Nat.mul_zero, show UInt32.ofNat 0 = 0 from rfl, UInt32.add_zero]; exact heq)
    exact absurd hten (by decide)
  · intro hone p hp q hq
    have hcount : packetCount (toInt data.length) ≤ 1 := by
      rw [packetCount]
      split <;> omega
    obtain ⟨i, hi, hpi⟩ := exists_timestamp_of_mem hp
    obtain ⟨j, hj, hqj⟩ := exists_timestamp_of_mem hq
    rw [hpi, hqj, show i = j by omega]

private theorem sendData_differ (b : RtpPacketBuilder) (data next : List UInt8) :
    ∀ p ∈ (sendData b data).2, ∀ q ∈ (sendData (sendData b data).1 next).2,
      p.timestamp ≠ q.timestamp := by
  intro p hp q hq heq
  obtain ⟨i, hi, hpi⟩ := exists_timestamp_of_mem hp
  obtain ⟨j, hj, hqj⟩ := exists_timestamp_of_mem hq
  rw [(sendData_timestamps b data).2, UInt32.add_assoc, ← UInt32.ofNat_add, ← Nat.mul_add] at hqj
  rw [hpi, hqj] at heq
  have hdata := packetCount_le data
  have hnext := packetCount_le next
  have hij := advance_injective b.timestamp (by omega) (by omega) heq
  omega

private theorem sendFrames_differ (b : RtpPacketBuilder) (frames : List (List UInt8)) :
    (sendFrames b frames).IsChain
      fun packs next => ∀ p ∈ packs, ∀ q ∈ next, p.timestamp ≠ q.timestamp := by
  induction frames generalizing b with
  | nil => exact .nil
  | cons data frames ih =>
      cases frames with
      | nil => exact .singleton _
      | cons next frames =>
          have hrest := ih (sendData b data).1
          exact List.isChain_cons_cons.mpr ⟨sendData_differ b data next, hrest⟩

private theorem sendFrames_same_iff (b : RtpPacketBuilder) (frames : List (List UInt8)) :
    (∀ packs ∈ sendFrames b frames, ∀ p ∈ packs, ∀ q ∈ packs, p.timestamp = q.timestamp) ↔
      ∀ frame ∈ frames, toInt frame.length ≤ 1280 := by
  induction frames generalizing b with
  | nil => simp [sendFrames]
  | cons data frames ih =>
      rw [sendFrames, List.forall_mem_cons, List.forall_mem_cons, sendData_same_iff, ih]

/-- Every packet advances the timestamp, also between the packets of a frame: each frame has one
timestamp exactly when each frame fits into one packet. -/
theorem timestampPerFrame_iff (b : RtpPacketBuilder) (frames : List (List UInt8)) :
    TimestampPerFrame (sendFrames b frames) ↔ ∀ frame ∈ frames, toInt frame.length ≤ 1280 := by
  rw [← sendFrames_same_iff b frames]
  constructor
  · exact TimestampPerFrame.same
  · intro hsame
    exact ⟨hsame, sendFrames_differ b frames⟩

theorem twoFragments_not_timestampPerFrame :
    ¬ TimestampPerFrame (sendFrames ⟨7, 0, 0⟩ [List.replicate 1281 1]) := by
  intro hstamps
  have hsize := (sendFrames_same_iff _ _).mp hstamps.same _ (List.mem_singleton_self _)
  rw [List.length_replicate] at hsize
  exact absurd hsize (by decide)

/-- A packet stays within the size of a fragment. -/
theorem sendData_payload_le {pack : RtpPacket} (h : pack ∈ (sendData b data).2) :
    pack.payload.length ≤ 1280 := by
  suffices hloop : ∀ (leftsize : Int) (offset : Nat), -2 ^ 31 ≤ leftsize →
      ∀ pack ∈ (sendLoop b data leftsize offset).2, pack.payload.length ≤ 1280 from
    hloop _ 0 (size_range data).1 pack h
  clear h pack
  intro leftsize offset hlow
  induction b, leftsize, offset using sendLoop.induct data with
  | case1 b leftsize offset hmore b' sent hsend _ _ _ ih =>
      rw [sendPacket_sent b data offset (Nat.le_refl 1280)] at hsend
      cases hsend
      rw [sendLoop, if_pos hmore, sendPacket_sent b data offset (Nat.le_refl 1280)]
      intro pack hpack
      rcases List.mem_cons.mp hpack with rfl | hpack
      · exact List.length_take_le _ _
      · exact ih (by omega) pack hpack
  | case2 b leftsize offset hlast =>
      rw [sendLoop, if_neg hlast]
      intro pack hpack
      by_cases hneg : leftsize < 0
      · rw [sendPacket_refused b data offset (by omega) hneg] at hpack
        cases hpack
      · have hlen : toSize leftsize ≤ 1280 := by
          rw [toSize_of_nonneg (by omega) (by omega)]
          omega
        rw [sendPacket_sent b data offset hlen, List.mem_singleton] at hpack
        rw [hpack]
        exact Nat.le_trans (List.length_take_le _ _) hlen

private theorem groups_sendFrames (b : RtpPacketBuilder) {frames : List (List UInt8)}
    (hsize : ∀ frame ∈ frames, frame.length < 2 ^ 31) :
    (groups RtpPacket.marker [] (sendFrames b frames).flatten).map callOf =
      frames.map fun frame => ⟨frame, frame.length⟩ := by
  induction frames generalizing b with
  | nil => rfl
  | cons frame frames ih =>
      obtain ⟨⟨body, last, hsplit, hbody, hlast⟩, -, hpayload⟩ :=
        sendData_isFrame b (hsize frame (List.mem_cons_self ..))
      have hrest := ih (sendData b frame).1 fun f hf => hsize f (List.mem_cons_of_mem _ hf)
      have hwhole : groups RtpPacket.marker [] (sendData b frame).2 = [(sendData b frame).2] := by
        rw [hsplit, groups_whole hbody hlast]
        rfl
      have hclosed : pending RtpPacket.marker [] (sendData b frame).2 = [] := by
        rw [hsplit, pending_of_end hlast]
      rw [sendFrames, List.flatten_cons, groups_append, hwhole, hclosed, List.map_append, hrest,
        List.map_cons, List.map_cons, List.map_nil, callOf, hpayload]
      rfl

/-- When the packets of payload type 96 that are received are those sent for `frames`, all of them
and in their order, `parsingPs` gets the frames back, each of them whole. -/
theorem recvLoopThread_sendFrames (fresh : Nat → UInt8) (b : RtpPacketBuilder)
    (frames : List (List UInt8)) (rounds : List RecvRound)
    (hsize : ∀ frame ∈ frames, 1 ≤ frame.length ∧ frame.length ≤ 2 ^ 31 - 1)
    (hlink : received rounds = (sendFrames b frames).flatten) :
    recvLoopThread fresh rounds = frames.map (fun frame => ⟨frame, frame.length⟩) ∧
      List.Forall₂ (fun packs frame => IsFrame packs frame ∧
        ∀ pack ∈ packs, pack.payload.length ≤ 1280) (sendFrames b frames) frames := by
  constructor
  · rw [recvLoopThread_eq, hlink]
    apply groups_sendFrames
    intro frame hframe
    have hle := (hsize frame hframe).2
    omega
  · clear hlink
    induction frames generalizing b with
    | nil => exact .nil
    | cons frame frames ih =>
        have hle := (hsize frame (List.mem_cons_self ..)).2
        have hframe : IsFrame (sendData b frame).2 frame := sendData_isFrame b (by omega)
        have hrest := ih (sendData b frame).1 fun f hf => hsize f (List.mem_cons_of_mem _ hf)
        exact .cons ⟨hframe, fun pack hpack => sendData_payload_le hpack⟩ hrest

/-- The two fragments of a frame with a packet of another payload type between them, and the packet
of the next frame. -/
private def interleaved : List RecvRound :=
  [⟨true, [[firstPacket, ⟨8, true, 40, 5, 7, [9]⟩]]⟩, ⟨true, [[lostPacket, nextPacket]]⟩]

theorem recvLoopThread_interleaved :
    recvLoopThread (fun _ => 0) interleaved = [⟨List.replicate 1281 1, 1281⟩, ⟨[2], 1⟩] := by
  have hsize : ∀ frame ∈ lossySender.frames, 1 ≤ frame.length ∧ frame.length ≤ 2 ^ 31 - 1 := by
    intro frame hframe
    rcases List.mem_cons.mp hframe with rfl | hframe
    · rw [List.length_replicate]
      decide
    · rw [List.mem_singleton.mp hframe]
      decide
  have hlink : received interleaved = (sendFrames ⟨7, 0, 0⟩ lossySender.frames).flatten := by
    have hpackets := lossySender_packets
    rw [Sender.packets] at hpackets
    rw [show (⟨7, 0, 0⟩ : RtpPacketBuilder) = lossySender.builder from rfl, hpackets]
    rfl
  have hcalls := (recvLoopThread_sendFrames (fun _ => 0) _ _ interleaved hsize hlink).1
  rw [hcalls, lossySender, List.map_cons, List.map_cons, List.map_nil, List.length_replicate]
  rfl

end GMProxy.TdRtp
