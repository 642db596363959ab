import GMProxy.Codec.TdCodec
import GMProxy.Library.Machine

/-!
# Setting and converting

`TdCodec::setParam` in the FIFO thread and `TdH264::convert` in the sender thread, cut at every access
to the parameters that they share without a lock. `setParam` raises the flag behind its writes;
`convert` reads the size, looks at the flag, and reads everything again for the encoder if it is up.
-/

namespace GMProxy.Codec

open TdChannel (CodecParam)

/-- What of the arguments of `setEncoderParam` reaches the encoder. -/
structure EncoderParam where
  iPicWidth : Int
  iPicHeight : Int
  iTargetBitrate : Int
  fMaxFrameRate : Int
deriving DecidableEq, Repr

/-- What `setEncoderParam` makes of its arguments; it hands `iMaxBitrate` on to nothing. -/
def encoderParam (width height bitrate _iMaxBitrate fps : Int) : EncoderParam :=
  ⟨width, height, bitrate, fps⟩

/-- Where the FIFO thread stands inside `setParam`: the last of its steps. -/
inductive SetterPc where
  | idle
  | heightSet (param : CodecParam)
  | widthSet (param : CodecParam)
  | rateSet (param : CodecParam)
  | maxBitrateSet (param : CodecParam)
deriving DecidableEq, Repr

/-- What `convert` has read again since it found the flag up. -/
structure Reread where
  height : Option Int
  width : Option Int
  maxBitrate : Option Int
  rate : Option Int
deriving DecidableEq, Repr

/-- Where the sender thread stands inside `convert`, with the size of `dstFrame`. -/
inductive ConverterPc where
  | idle
  | heightRead (height : Int)
  | sizeRead (height width : Int)
  | refreshing (got : Reread)
  | initialised (height width : Int)
  | prepared (height width : Int)
  | scaled (height width : Int)
deriving DecidableEq, Repr

/-- The parameters, what the last `setEncoderParam` has given the encoder, and the two threads. -/
structure Encoding where
  param : TdCodecParam
  encoder : Option EncoderParam
  setter : SetterPc
  converter : ConverterPc
deriving DecidableEq, Repr

/-- The child when its threads start: `createChannel` has set its parameters. -/
def Encoding.start (param : CodecParam) : Encoding := ⟨sentParam [param], none, .idle, .idle⟩

/-- The steps of `setParam`, and those of `convert` for an input that the decoder turns into a
picture; for another input `convert` reads nothing. -/
inductive Access where
  | setHeight (param : CodecParam)
  | setWidth
  | setRate
  | setMaxBitrate
  | setRefresh
  | readHeight
  | readWidth
  | testRefresh
  | rereadHeight
  | rereadWidth
  | readMaxBitrate
  | readRate
  | setEncoderParam
  | clearRefresh
  | scale (failed : Bool)
  | encode
deriving DecidableEq, Repr

namespace Encoding

variable (s : Encoding)

def setterStep : Access → Option Encoding
  | .setHeight param =>
      match s.setter with
      | .idle => some { s with
          param := s.param.setCodecHeight param.height, setter := .heightSet param }
      | _ => none
  | .setWidth =>
      match s.setter with
      | .heightSet param => some { s with
          param := s.param.setCodecWidth param.width, setter := .widthSet param }
      | _ => none
  | .setRate =>
      match s.setter with
      | .widthSet param => some { s with param := s.param.setRate param, setter := .rateSet param }
      | _ => none
  | .setMaxBitrate =>
      match s.setter with
      | .rateSet param => some { s with
          param := s.param.setMaxBitrate param, setter := .maxBitrateSet param }
      | _ => none
  | .setRefresh =>
      match s.setter with
      | .maxBitrateSet _ => some { s with
          param := s.param.setCodecParamRefresh true, setter := .idle }
      | _ => none
  | _ => none

/-- The two arguments that are read in the call of `setEncoderParam` come in either order. -/
def converterStep : Access → Option Encoding
  | .readHeight =>
      match s.converter with
      | .idle => some { s with converter := .heightRead s.param.mHeight }
      | _ => none
  | .readWidth =>
      match s.converter with
      | .heightRead height => some { s with converter := .sizeRead height s.param.mWidth }
      | _ => none
  | .testRefresh =>
      match s.converter with
      | .sizeRead height width =>
          if s.param.mIsRefresh then
            some { s with converter := .refreshing ⟨none, none, none, none⟩ }
          else some { s with converter := .prepared height width }
      | _ => none
  | .rereadHeight =>
      match s.converter with
      | .refreshing ⟨none, none, none, none⟩ => some { s with
          converter := .refreshing ⟨some s.param.mHeight, none, none, none⟩ }
      | _ => none
  | .rereadWidth =>
      match s.converter with
      | .refreshing ⟨some height, none, none, none⟩ => some { s with
          converter := .refreshing ⟨some height, some s.param.mWidth, none, none⟩ }
      | _ => none
  | .readMaxBitrate =>
      match s.converter with
      | .refreshing ⟨some height, some width, none, rate⟩ => some { s with
          converter := .refreshing ⟨some height, some width, some s.param.mMaxBitrate, rate⟩ }
      | _ => none
  | .readRate =>
      match s.converter with
      | .refreshing ⟨some height, some width, maxBitrate, none⟩ => some { s with
          converter := .refreshing ⟨some height, some width, maxBitrate, some s.param.mRate⟩ }
      | _ => none
  | .setEncoderParam =>
      match s.converter with
      | .refreshing ⟨some height, some width, some maxBitrate, some rate⟩ => some { s with
          encoder := some (encoderParam width height 400000 maxBitrate rate)
          converter := .initialised height width }
      | _ => none
  | .clearRefresh =>
      match s.converter with
      | .initialised height width => some { s with
          param := s.param.setCodecParamRefresh false, converter := .prepared height width }
      | _ => none
  | .scale failed =>
      match s.converter with
      | .prepared height width =>
          if failed then some { s with converter := .idle }
          else some { s with converter := .scaled height width }
      | _ => none
  | .encode =>
      match s.converter with
      | .scaled _ _ => some { s with converter := .idle }
      | _ => none
  | _ => none

end Encoding

def Access.isConvert : Access → Bool
  | setHeight _ | setWidth | setRate | setMaxBitrate | setRefresh => false
  | _ => true

def step (s : Encoding) (e : Access) : Option Encoding :=
  if e.isConvert then s.converterStep e else s.setterStep e

/-- `setParam` without `convert` in between. -/
theorem setParam_run (s : Encoding) (param : CodecParam) (hidle : s.setter = .idle) :
    Machine.run step s [.setHeight param, .setWidth, .setRate, .setMaxBitrate, .setRefresh] =
      some { s with param := s.param.setParam param } := by
  obtain ⟨codecParam, encoder, setter, converter⟩ := s
  cases hidle
  rfl

inductive Field where
  | height
  | width
  | rate
  | maxBitrate
deriving DecidableEq, Repr

def TdCodecParam.get (c : TdCodecParam) : Field → Int
  | .height => c.mHeight
  | .width => c.mWidth
  | .rate => c.mRate
  | .maxBitrate => c.mMaxBitrate

/-- The encoder has no maximal bitrate. -/
def EncoderParam.get (c : EncoderParam) : Field → Option Int
  | .height => some c.iPicHeight
  | .width => some c.iPicWidth
  | .rate => some c.fMaxFrameRate
  | .maxBitrate => none

def Reread.get (got : Reread) : Field → Option Int
  | .height => got.height
  | .width => got.width
  | .rate => got.rate
  | .maxBitrate => got.maxBitrate

/-- The field that a step of a refresh reads. -/
def Access.rereads : Access → Option Field
  | rereadHeight => some .height
  | rereadWidth => some .width
  | readMaxBitrate => some .maxBitrate
  | readRate => some .rate
  | _ => none

/-- What a step of `convert` can do. -/
inductive Encoding.Converts (s : Encoding) : Access → Encoding → Prop where
  | readHeight (hpc : s.converter = .idle) :
      Converts s .readHeight { s with converter := .heightRead s.param.mHeight }
  | readWidth (height : Int) (hpc : s.converter = .heightRead height) :
      Converts s .readWidth { s with converter := .sizeRead height s.param.mWidth }
  | testUp (height width : Int) (hpc : s.converter = .sizeRead height width)
      (hup : s.param.mIsRefresh = true) :
      Converts s .testRefresh { s with converter := .refreshing ⟨none, none, none, none⟩ }
  | testDown (height width : Int) (hpc : s.converter = .sizeRead height width)
      (hdown : s.param.mIsRefresh = false) :
      Converts s .testRefresh { s with converter := .prepared height width }
  | reread (e : Access) (f : Field) (got got' : Reread) (hpc : s.converter = .refreshing got)
      (hread : e.rereads = some f) (hnew : got'.get f = some (s.param.get f))
      (hold : ∀ g, g ≠ f → got'.get g = got.get g) :
      Converts s e { s with converter := .refreshing got' }
  | setEncoderParam (height width maxBitrate rate : Int)
      (hpc : s.converter = .refreshing ⟨some height, some width, some maxBitrate, some rate⟩) :
      Converts s .setEncoderParam { s with
        encoder := some (encoderParam width height 400000 maxBitrate rate)
        converter := .initialised height width }
  | clearRefresh (height width : Int) (hpc : s.converter = .initialised height width) :
      Converts s .clearRefresh { s with
        param := s.param.setCodecParamRefresh false, converter := .prepared height width }
  | scaleFailed (height width : Int) (hpc : s.converter = .prepared height width) :
      Converts s (.scale true) { s with converter := .idle }
  | scale (height width : Int) (hpc : s.converter = .prepared height width) :
      Converts s (.scale false) { s with converter := .scaled height width }
  | encode (height width : Int) (hpc : s.converter = .scaled height width) :
      Converts s .encode { s with converter := .idle }

/-- The fields read again so far, with one more. -/
def Reread.read (got : Reread) (f : Field) (value : Int) : Reread :=
  match f with
  | .height => { got with height := some value }
  | .width => { got with width := some value }
  | .rate => { got with rate := some value }
  | .maxBitrate => { got with maxBitrate := some value }

theorem Reread.get_read (got : Reread) (f g : Field) (value : Int) :
    (got.read f value).get g = if g = f then some value else got.get g := by
  cases f
  all_goals cases g
  all_goals rfl

theorem Encoding.Converts.read {s : Encoding} {e : Access} {got : Reread} (f : Field)
    (hpc : s.converter = .refreshing got) (hread : e.rereads = some f) :
    s.Converts e { s with converter := .refreshing (got.read f (s.param.get f)) } := by
  apply Converts.reread e f got _ hpc hread
  · rw [Reread.get_read, if_pos rfl]
  · intro g hg
    rw [Reread.get_read, if_neg hg]

theorem Encoding.converterStep_cases {s s' : Encoding} {e : Access}
    (h : s.converterStep e = some s') : s.Converts e s' := by
  cases e with
  | readHeight =>
      cases hpc : s.converter with
      | idle =>
          simp only [converterStep, hpc, Option.some.injEq] at h
          exact h ▸ .readHeight hpc
      | _ => simp [converterStep, hpc] at h
  | readWidth =>
      cases hpc : s.converter with
      | heightRead height =>
          simp only [converterStep, hpc, Option.some.injEq] at h
          exact h ▸ .readWidth height hpc
      | _ => simp [converterStep, hpc] at h
  | testRefresh =>
      cases hpc : s.converter with
      | sizeRead height width =>
          simp only [converterStep, hpc] at h
          by_cases hup : s.param.mIsRefresh = true
          · rw [if_pos hup, Option.some.injEq] at h
            exact h ▸ .testUp height width hpc hup
          · rw [if_neg hup, Option.some.injEq] at h
            exact h ▸ .testDown height width hpc (by simpa using hup)
      | _ => simp [converterStep, hpc] at h
  | rereadHeight =>
      simp only [converterStep] at h
      split at h
      case h_1 hpc => exact Option.some.inj h ▸ .read .height hpc rfl
      case h_2 => cases h
  | rereadWidth =>
      simp only [converterStep] at h
      split at h
      case h_1 hpc => exact Option.some.inj h ▸ .read .width hpc rfl
      case h_2 => cases h
  | readMaxBitrate =>
      simp only [converterStep] at h
      split at h
      case h_1 hpc => exact Option.some.inj h ▸ .read .maxBitrate hpc rfl
      case h_2 => cases h
  | readRate =>
      simp only [converterStep] at h
      split at h
      case h_1 hpc => exact Option.some.inj h ▸ .read .rate hpc rfl
      case h_2 => cases h
  | setEncoderParam =>
      simp only [converterStep] at h
      split at h
      case h_1 hpc => exact Option.some.inj h ▸ .setEncoderParam _ _ _ _ hpc
      case h_2 => cases h
  | clearRefresh =>
      simp only [converterStep] at h
      split at h
      case h_1 hpc => exact Option.some.inj h ▸ .clearRefresh _ _ hpc
      case h_2 => cases h
  | scale failed =>
      simp only [converterStep] at h
      split at h
      case h_1 hpc =>
        cases failed with
        | true => exact Option.some.inj h ▸ .scaleFailed _ _ hpc
        | false => exact Option.some.inj h ▸ .scale _ _ hpc
      case h_2 => cases h
  | encode =>
      simp only [converterStep] at h
      split at h
      case h_1 hpc => exact Option.some.inj h ▸ .encode _ _ hpc
      case h_2 => cases h
  | _ => cases h

end GMProxy.Codec
