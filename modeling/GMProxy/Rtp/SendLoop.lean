import GMProxy.Ps.Clock
import GMProxy.Rtp.Session

/-!
# The sender loop

`TdRtp::sendLoopThread` from the frames that `convert` has coded to the RTP packets, and the clock of
the packs it sends.
-/

namespace GMProxy.TdRtp

open TdPs

/-- What `convert` leaves in `codecOutDate`, `codecOutSize` and `isKeyFrame`. -/
structure CodecOut where
  data : List UInt8
  isKeyFrame : Bool
  fits : data.length < 2 ^ 32

/-- One pass of the loop: `pop` gives an empty packet, or a frame of which `convert` makes
`codecOut`, a null pointer when it makes nothing. -/
inductive SendPass where
  | empty
  | frame (codecOut : Option CodecOut)

/-- `pts` and the packet builder of the session. -/
structure SendState where
  pts : UInt32
  builder : RtpPacketBuilder

/-- A frame that has been packaged, with the packets sent for it. -/
structure SentFrame where
  pack : PsPack
  packets : List RtpPacket

def h264Stream (pts : UInt32) (out : CodecOut) : H264Stream where
  isIframe := if out.isKeyFrame then 1 else 0
  pts := pts.toUInt64
  dts := pts.toUInt64
  size := UInt32.ofNat out.data.length
  data := out.data
  size_eq := UInt32.toNat_ofNat_of_lt' out.fits

variable (fresh : Nat → UInt8)

/-- The body of the loop; a copy outside the frame ends the process. -/
def sendPass (s : SendState) : SendPass → Option (SendState × List SentFrame)
  | .empty => some (s, [])
  | .frame none => some (s, [])
  | .frame (some out) =>
      if 0 < out.data.length then do
        let pts := s.pts + 3600
        let psOut ← packagingPs fresh (h264Stream s.pts out)
        if 0 < psOut.outlength then
          let sent := sendData s.builder psOut.outData
          some (⟨pts, sent.1⟩, [⟨psOut, sent.2⟩])
        else some (⟨pts, s.builder⟩, [⟨psOut, []⟩])
      else some (s, [])

/-- The frames packaged in a run, in their order. -/
def sendLoopThread (s : SendState) : List SendPass → Option (List SentFrame)
  | [] => some []
  | pass :: passes => do
      let first ← sendPass fresh s pass
      let rest ← sendLoopThread first.1 passes
      some (first.2 ++ rest)

variable {fresh} {s s' : SendState} {passes : List SendPass} {sent : List SentFrame}

private theorem sendPass_coded (fresh : Nat → UInt8) (s : SendState) {out : CodecOut}
    (hpos : 0 < out.data.length) (hsize : out.data.length < 2 ^ 31) :
    ∃ builder frame, sendPass fresh s (.frame (some out)) = some (⟨s.pts + 3600, builder⟩, [frame]) ∧
      ∀ time, CarriesTime frame.pack.outData time ↔ time = s.pts.toNat := by
  obtain ⟨pack, hpack, htime⟩ := packagingPs_carriesTime fresh
    (show (h264Stream s.pts out).data.length < 2 ^ 31 from hsize) rfl
  have hpts : (h264Stream s.pts out).pts.toNat % 2 ^ 33 = s.pts.toNat := by
    have hlt := s.pts.toNat_lt
    rw [h264Stream, UInt32.toNat_toUInt64]
    omega
  rw [hpts] at htime
  by_cases hout : 0 < pack.outlength
  · refine ⟨(sendData s.builder pack.outData).1, ⟨pack, (sendData s.builder pack.outData).2⟩, ?_,
      htime⟩
    rw [sendPass, if_pos hpos, hpack, Option.bind_eq_bind, Option.bind_some, if_pos hout]
  · refine ⟨s.builder, ⟨pack, []⟩, ?_, htime⟩
    rw [sendPass, if_pos hpos, hpack, Option.bind_eq_bind, Option.bind_some, if_neg hout]

/-- A pass packages nothing and leaves the clock, or one frame with the time of the clock, which it
advances. -/
theorem sendPass_cases {pass : SendPass} (h : sendPass fresh s pass = some (s', sent)) :
    (sent = [] ∧ s'.pts = s.pts) ∨
      ∃ frame, sent = [frame] ∧ s'.pts = s.pts + 3600 ∧
        ∀ time, CarriesTime frame.pack.outData time ↔ time = s.pts.toNat := by
  cases pass with
  | empty =>
      cases h
      exact Or.inl ⟨rfl, rfl⟩
  | frame codecOut =>
      cases codecOut with
      | none =>
          cases h
          exact Or.inl ⟨rfl, rfl⟩
      | some out =>
          by_cases hpos : 0 < out.data.length
          · by_cases hlarge : 2 ^ 31 ≤ out.data.length
            · have hfail : packagingPs fresh (h264Stream s.pts out) = none :=
                packagingPs_large fresh hlarge
              rw [sendPass, if_pos hpos, hfail] at h
              cases h
            · obtain ⟨builder, frame, hpass, htime⟩ := sendPass_coded fresh s hpos (by omega)
              rw [hpass] at h
              obtain ⟨hstate, hsent⟩ := Prod.mk.inj (Option.some.inj h)
              exact Or.inr ⟨frame, hsent.symm, by rw [← hstate], htime⟩
          · rw [sendPass, if_neg hpos] at h
            cases h
            exact Or.inl ⟨rfl, rfl⟩

theorem exists_of_sendLoopThread {pass : SendPass}
    (h : sendLoopThread fresh s (pass :: passes) = some sent) :
    ∃ s' first rest, sendPass fresh s pass = some (s', first) ∧
      sendLoopThread fresh s' passes = some rest ∧ sent = first ++ rest := by
  rw [sendLoopThread, Option.bind_eq_bind, Option.bind_eq_some_iff] at h
  obtain ⟨⟨s', first⟩, hpass, h⟩ := h
  rw [Option.bind_eq_bind, Option.bind_eq_some_iff] at h
  obtain ⟨rest, hrest, h⟩ := h
  cases h
  exact ⟨s', first, rest, hpass, hrest, rfl⟩

/-- The clock has 32 bits: frame `n` carries the start value and `3600 * n` modulo `2 ^ 32`. -/
theorem sendLoopThread_time (h : sendLoopThread fresh s passes = some sent) {n : Nat}
    {frame : SentFrame} (hframe : sent[n]? = some frame) (time : Nat) :
    CarriesTime frame.pack.outData time ↔ time = (s.pts.toNat + 3600 * n) % 2 ^ 32 := by
  induction passes generalizing s sent n with
  | nil =>
      cases h
      cases hframe
  | cons pass passes ih =>
      obtain ⟨s', first, rest, hpass, hrest, rfl⟩ := exists_of_sendLoopThread h
      rcases sendPass_cases hpass with ⟨rfl, hpts⟩ | ⟨frame', rfl, hpts, htime⟩
      · rw [← hpts]
        exact ih hrest hframe
      · cases n with
        | zero =>
            cases hframe
            rw [htime, Nat.mul_zero, Nat.add_zero, Nat.mod_eq_of_lt s.pts.toNat_lt]
        | succ n =>
            rw [ih hrest hframe, hpts, UInt32.toNat_add, Nat.mod_add_mod, Nat.mul_succ,
              Nat.add_assoc, Nat.add_comm (3600 * n)]
            rfl

/-- Frames that are not empty and fit an `int` are all packaged. -/
theorem exists_sendLoopThread (fresh : Nat → UInt8) (s : SendState) (outs : List CodecOut)
    (hsize : ∀ out ∈ outs, 0 < out.data.length ∧ out.data.length < 2 ^ 31) :
    ∃ sent, sendLoopThread fresh s (outs.map fun out => .frame (some out)) = some sent ∧
      sent.length = outs.length := by
  induction outs generalizing s with
  | nil => exact ⟨[], rfl, rfl⟩
  | cons out outs ih =>
      obtain ⟨hpos, hlt⟩ := hsize out (List.mem_cons_self ..)
      obtain ⟨builder, frame, hpass, -⟩ := sendPass_coded fresh s hpos hlt
      obtain ⟨rest, hrest, hlen⟩ :=
        ih ⟨s.pts + 3600, builder⟩ fun o ho => hsize o (List.mem_cons_of_mem _ ho)
      refine ⟨frame :: rest, ?_, by rw [List.length_cons, List.length_cons, hlen]⟩
      rw [List.map_cons, sendLoopThread, hpass, Option.bind_eq_bind, Option.bind_some, hrest]
      rfl

/-- Frame `n` carries `3600 * n` modulo `2 ^ 33`, and each frame the time of the frame before it
advanced by 3600. -/
structure KeepsClock (sent : List SentFrame) : Prop where
  time : ∀ n frame, sent[n]? = some frame → CarriesTime frame.pack.outData (3600 * n % 2 ^ 33)
  advance : ∀ n frame next time, sent[n]? = some frame → sent[n + 1]? = some next →
    CarriesTime frame.pack.outData time → CarriesTime next.pack.outData ((time + 3600) % 2 ^ 33)

private theorem clock_agrees_iff (n : Nat) :
    3600 * n % 2 ^ 33 = 3600 * n % 2 ^ 32 ↔ 3600 * n % 2 ^ 33 < 2 ^ 32 := by
  omega

private theorem keepsClock_iff (builder : RtpPacketBuilder)
    (hrun : sendLoopThread fresh ⟨0, builder⟩ passes = some sent) :
    KeepsClock sent ↔ sent.length ≤ 1193047 := by
  have htime {n : Nat} {frame : SentFrame} (hframe : sent[n]? = some frame) (time : Nat) :
      CarriesTime frame.pack.outData time ↔ time = 3600 * n % 2 ^ 32 := by
    have hrunTime := sendLoopThread_time hrun hframe time
    rw [show (0 : UInt32).toNat = 0 from rfl, Nat.zero_add] at hrunTime
    exact hrunTime
  constructor
  · intro hclock
    by_contra hlong
    have hframe := List.getElem?_eq_getElem (l := sent) (show 1193047 < sent.length by omega)
    have hwrong := (htime hframe _).mp (hclock.time _ _ hframe)
    exact absurd hwrong (by decide)
  · intro hshort
    constructor
    · intro n frame hframe
      have hn := (List.getElem?_eq_some_iff.mp hframe).1
      rw [htime hframe, Nat.mod_eq_of_lt (show 3600 * n < 2 ^ 33 by omega),
        Nat.mod_eq_of_lt (by omega)]
    · intro n frame next time hframe hnext hcarries
      have hn := (List.getElem?_eq_some_iff.mp hnext).1
      rw [htime hframe, Nat.mod_eq_of_lt (by omega)] at hcarries
      rw [htime hnext, hcarries, Nat.mul_succ, Nat.mod_eq_of_lt (show _ < 2 ^ 33 by omega),
        Nat.mod_eq_of_lt (by omega)]

/-- The fields show the low 32 bits of the clock: the first frame with a wrong time is number
1193047. -/
theorem sendLoopThread_clock_iff (fresh : Nat → UInt8) (builder : RtpPacketBuilder)
    (passes : List SendPass) (sent : List SentFrame)
    (hrun : sendLoopThread fresh ⟨0, builder⟩ passes = some sent) :
    (∀ n frame, sent[n]? = some frame →
        (CarriesTime frame.pack.outData (3600 * n % 2 ^ 33) ↔ 3600 * n % 2 ^ 33 < 2 ^ 32)) ∧
      (KeepsClock sent ↔ sent.length ≤ 1193047) := by
  refine ⟨fun n frame hframe => ?_, keepsClock_iff builder hrun⟩
  rw [sendLoopThread_time hrun hframe, show (0 : UInt32).toNat = 0 from rfl, Nat.zero_add]
  exact clock_agrees_iff n

/-- A frame of one byte. -/
private def tinyFrame : CodecOut := ⟨[0], false, by decide⟩

private theorem tinyFrames_sent (count : Nat) :
    ∃ sent, sendLoopThread (fun _ => 0) ⟨0, ⟨7, 0, 0⟩⟩
        ((List.replicate count tinyFrame).map fun out => .frame (some out)) = some sent ∧
      sent.length = count := by
  have hsize : ∀ out ∈ List.replicate count tinyFrame,
      0 < out.data.length ∧ out.data.length < 2 ^ 31 := by
    intro out hout
    rw [List.eq_of_mem_replicate hout]
    decide
  have hsent := exists_sendLoopThread (fun _ => 0) ⟨0, ⟨7, 0, 0⟩⟩ _ hsize
  rw [List.length_replicate] at hsent
  exact hsent

theorem sendLoopThread_clock_ten :
    ∃ sent, sendLoopThread (fun _ => 0) ⟨0, ⟨7, 0, 0⟩⟩
        ((List.replicate 10 tinyFrame).map fun out => .frame (some out)) = some sent ∧
      KeepsClock sent := by
  obtain ⟨sent, hrun, hlen⟩ := tinyFrames_sent 10
  have hclock := (sendLoopThread_clock_iff (fun _ => 0) ⟨7, 0, 0⟩ _ sent hrun).2
  exact ⟨sent, hrun, hclock.mpr (by omega)⟩

/-- After thirteen hours at 25 frames a second the clock starts again at 0. -/
theorem longRun_not_keepsClock :
    ∃ sent, sendLoopThread (fun _ => 0) ⟨0, ⟨7, 0, 0⟩⟩
        ((List.replicate 1193048 tinyFrame).map fun out => .frame (some out)) = some sent ∧
      ¬ KeepsClock sent := by
  obtain ⟨sent, hrun, hlen⟩ := tinyFrames_sent 1193048
  refine ⟨sent, hrun, fun hclock => ?_⟩
  have hshort := (keepsClock_iff ⟨7, 0, 0⟩ hrun).mp hclock
  omega

end GMProxy.TdRtp
