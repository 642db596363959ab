import GMProxy.Channel.Manager

/-!
# Codec parameters of a channel process

`TdCodec` and the parameters of its `TdH264`. `setParam` takes every size it is given, but a rate and
a maximal bitrate only inside their bounds.
-/

namespace GMProxy.Codec

open TdChannel (CodecParam)

inductive CodecType where
  | videoH264
  | videoH265
deriving DecidableEq, Repr

structure TdCodecParam where
  mWidth : Int := 960
  mHeight : Int := 540
  mRate : Int := 25
  mMaxBitrate : Int := 300000
  mBaseBitrate : Int := 150000
  mIsRefresh : Bool := false
deriving DecidableEq, Repr

namespace TdCodecParam

variable (c : TdCodecParam)

def setCodecWidth (width : Int) : TdCodecParam := { c with mWidth := width }

def setCodecHeight (height : Int) : TdCodecParam := { c with mHeight := height }

def setCodecRate (rate : Int) : TdCodecParam := { c with mRate := rate }

def setCodecMaxBitrate (maxBitrate : Int) : TdCodecParam := { c with mMaxBitrate := maxBitrate }

def setCodecParamRefresh (status : Bool) : TdCodecParam := { c with mIsRefresh := status }

/-- The rate of a command, if it is below 15. -/
def setRate (param : CodecParam) : TdCodecParam :=
  if param.rate < 15 then c.setCodecRate param.rate else c

/-- The maximal bitrate of a command, if it is above the base bitrate. -/
def setMaxBitrate (param : CodecParam) : TdCodecParam :=
  if param.maxBitrate > c.mBaseBitrate then c.setCodecMaxBitrate param.maxBitrate else c

/-- The body of `TdCodec::setParam`. -/
def setParam (param : CodecParam) : TdCodecParam :=
  let c := c.setCodecHeight param.height
  let c := c.setCodecWidth param.width
  let c := c.setRate param
  let c := c.setMaxBitrate param
  c.setCodecParamRefresh true

end TdCodecParam

/-- `TdCodec`; of its `TdH264` the parameters. -/
structure TdCodec where
  mCodecType : CodecType
  mCodec : TdCodecParam
deriving DecidableEq, Repr

/-- `TdCodec::init`; `TdH264::create` asks for a refresh. -/
def TdCodec.init : CodecType → Option TdCodec
  | .videoH264 => some ⟨.videoH264, ({} : TdCodecParam).setCodecParamRefresh true⟩
  | .videoH265 => none

def TdCodec.setParam (codec : TdCodec) (param : CodecParam) : Option TdCodec :=
  match codec.mCodecType with
  | .videoH264 => some { codec with mCodec := codec.mCodec.setParam param }
  | .videoH265 => none

/-- The codec of a channel process: `setUp`, the parameters that `createChannel` was called with, and
the commands that `TdRtp::start` has read. -/
def childCodec (sent : List CodecParam) : Option TdCodec :=
  (TdCodec.init .videoH264).bind fun codec => sent.foldlM TdCodec.setParam codec

/-- The last of the rates sent that are below 15. -/
def keptRate (sent : List CodecParam) : Int :=
  ((sent.filter (·.rate < 15)).getLast?.map (·.rate)).getD 25

/-- The last of the maximal bitrates sent that are above 150000. -/
def keptMaxBitrate (sent : List CodecParam) : Int :=
  ((sent.filter (·.maxBitrate > 150000)).getLast?.map (·.maxBitrate)).getD 300000

theorem keptRate_concat (sent : List CodecParam) (param : CodecParam) :
    keptRate (sent ++ [param]) = if param.rate < 15 then param.rate else keptRate sent := by
  rw [keptRate, List.filter_append]
  by_cases hrate : param.rate < 15
  · rw [if_pos hrate, List.filter_cons_of_pos (by simpa using hrate)]
    simp
  · rw [if_neg hrate, List.filter_cons_of_neg (by simpa using hrate), List.filter_nil,
      List.append_nil, keptRate]

theorem keptMaxBitrate_concat (sent : List CodecParam) (param : CodecParam) :
    keptMaxBitrate (sent ++ [param]) =
      if param.maxBitrate > 150000 then param.maxBitrate else keptMaxBitrate sent := by
  rw [keptMaxBitrate, List.filter_append]
  by_cases hbitrate : param.maxBitrate > 150000
  · rw [if_pos hbitrate, List.filter_cons_of_pos (by simpa using hbitrate)]
    simp
  · rw [if_neg hbitrate, List.filter_cons_of_neg (by simpa using hbitrate), List.filter_nil,
      List.append_nil, keptMaxBitrate]

theorem setParam_eq (c : TdCodecParam) (param : CodecParam) : c.setParam param =
    { mWidth := param.width
      mHeight := param.height
      mRate := if param.rate < 15 then param.rate else c.mRate
      mMaxBitrate := if param.maxBitrate > c.mBaseBitrate then param.maxBitrate else c.mMaxBitrate
      mBaseBitrate := c.mBaseBitrate
      mIsRefresh := true } := by
  unfold TdCodecParam.setParam TdCodecParam.setRate TdCodecParam.setMaxBitrate
  by_cases hrate : param.rate < 15
  · by_cases hbitrate : param.maxBitrate > c.mBaseBitrate
    · simp [hrate, hbitrate, TdCodecParam.setCodecHeight, TdCodecParam.setCodecWidth,
        TdCodecParam.setCodecRate, TdCodecParam.setCodecMaxBitrate, TdCodecParam.setCodecParamRefresh]
    · simp [hrate, hbitrate, TdCodecParam.setCodecHeight, TdCodecParam.setCodecWidth,
        TdCodecParam.setCodecRate, TdCodecParam.setCodecParamRefresh]
  · by_cases hbitrate : param.maxBitrate > c.mBaseBitrate
    · simp [hrate, hbitrate, TdCodecParam.setCodecHeight, TdCodecParam.setCodecWidth,
        TdCodecParam.setCodecMaxBitrate, TdCodecParam.setCodecParamRefresh]
    · simp [hrate, hbitrate, TdCodecParam.setCodecHeight, TdCodecParam.setCodecWidth,
        TdCodecParam.setCodecParamRefresh]

/-- The parameters of a new codec behind the parameters sent. -/
def sentParam (sent : List CodecParam) : TdCodecParam :=
  sent.foldl TdCodecParam.setParam (({} : TdCodecParam).setCodecParamRefresh true)

theorem sentParam_concat (sent : List CodecParam) (param : CodecParam) :
    sentParam (sent ++ [param]) = (sentParam sent).setParam param := by
  rw [sentParam, List.foldl_append]
  rfl

theorem childCodec_eq (sent : List CodecParam) :
    childCodec sent = some ⟨.videoH264, sentParam sent⟩ := by
  have hfold (c : TdCodecParam) : sent.foldlM TdCodec.setParam ⟨.videoH264, c⟩ =
      some ⟨.videoH264, sent.foldl TdCodecParam.setParam c⟩ := by
    induction sent generalizing c with
    | nil => rfl
    | cons param sent ih => exact ih (c.setParam param)
  exact hfold _

/-- A codec keeps the last rate and the last maximal bitrate inside their bounds. -/
theorem sentParam_kept (sent : List CodecParam) : (sentParam sent).mRate = keptRate sent ∧
    (sentParam sent).mMaxBitrate = keptMaxBitrate sent ∧
      (sentParam sent).mBaseBitrate = 150000 := by
  induction sent using List.reverseRecOn with
  | nil => exact ⟨rfl, rfl, rfl⟩
  | append_singleton sent param ih =>
      obtain ⟨hrate, hbitrate, hbase⟩ := ih
      rw [sentParam_concat, setParam_eq, hrate, hbitrate, hbase, keptRate_concat,
        keptMaxBitrate_concat]
      exact ⟨rfl, rfl, rfl⟩

/-- It has the size of the last parameters sent. -/
theorem sentParam_size (sent : List CodecParam) (param : CodecParam) :
    (sentParam (sent ++ [param])).mHeight = param.height ∧
      (sentParam (sent ++ [param])).mWidth = param.width := by
  rw [sentParam_concat, setParam_eq]
  exact ⟨rfl, rfl⟩

end GMProxy.Codec
