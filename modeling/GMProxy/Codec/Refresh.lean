import GMProxy.Codec.Convert

/-!
# Refreshing the encoder

When the pictures of `convert` have the size of the encoder, and when the encoder gets the parameters
that `setParam` sets. A field is dirty while `setParam` has written it and `convert` has not read it
for the encoder since. A maximal bitrate is read, but it never gets to the encoder.
-/

namespace GMProxy.Codec

open Machine
open TdChannel (CodecParam)

/-- The fields that the `setParam` in progress is through with. -/
def SetterPc.hasSet : SetterPc → Field → Bool
  | idle, _ => false
  | heightSet _, f => f = .height
  | widthSet _, f => f = .height ∨ f = .width
  | rateSet _, f => f ≠ .maxBitrate
  | maxBitrateSet _, _ => true

/-- From the test of the flag to its clearing. -/
def ConverterPc.isRefreshing : ConverterPc → Bool
  | refreshing _ | initialised _ _ => true
  | _ => false

/-- The fields that the refresh in progress is through with. -/
def ConverterPc.hasReread : ConverterPc → Field → Bool
  | refreshing got, f => (got.get f).isSome
  | initialised _ _, _ => true
  | _, _ => false

namespace Encoding

/-- The encoder was last initialised with this size. -/
def HasSize (s : Encoding) (height width : Int) : Prop :=
  ∃ enc, s.encoder = some enc ∧ enc.iPicHeight = height ∧ enc.iPicWidth = width

/-- A picture that is encoded has the size with which the encoder was last initialised. -/
def PictureFits (s : Encoding) : Access → Prop
  | .encode => ∀ height width, s.converter = .scaled height width → s.HasSize height width
  | _ => True

/-- The encoder was last initialised with the parameters that are set, the maximal bitrate among them
if `setParam` has set one. -/
def UsesParams (s : Encoding) (bitrateSet : Bool) : Prop :=
  ∃ enc, s.encoder = some enc ∧
    ∀ f, (f = .maxBitrate → bitrateSet = true) → enc.get f = some (s.param.get f)

end Encoding

/-- The fields that have been written since `convert` last read them for the encoder, whether the size
it has read for the next picture was dirty with the flag down, and whether `setParam` has set a maximal
bitrate. -/
structure History where
  dirty : Field → Bool
  unannounced : Bool
  bitrateSet : Bool

/-- With no `setParam` in progress, the encoder uses the last parameters set as soon as the next frame
has been converted. -/
def NextFrameApplies (x : Encoding × History) : Prop :=
  x.1.setter = .idle → x.1.converter = .idle → ∀ events s', events ≠ [] →
    (∀ e ∈ events, e.isConvert = true) → Machine.run step x.1 events = some s' →
      s'.converter = .idle → s'.UsesParams x.2.bitrateSet

namespace History

/-- `createChannel` has set its parameters. -/
def start (param : CodecParam) : History :=
  ⟨fun _ => false, false, param.maxBitrate > ({} : TdCodecParam).mBaseBitrate⟩

def read (h : History) (s : Encoding) (f : Field) : History :=
  { h with unannounced := h.unannounced || !s.param.mIsRefresh && h.dirty f }

def write (h : History) (f : Field) : History := { h with dirty := Function.update h.dirty f true }

def reread (h : History) (f : Field) : History := { h with dirty := Function.update h.dirty f false }

def after (s : Encoding) (e : Access) (h : History) : History :=
  match e, s.setter with
  | .setHeight _, _ => h.write .height
  | .setWidth, _ => h.write .width
  | .setRate, .widthSet param => if param.rate < 15 then h.write .rate else h
  | .setMaxBitrate, .rateSet param =>
      if param.maxBitrate > s.param.mBaseBitrate then
        { h.write .maxBitrate with bitrateSet := true }
      else h
  | .readHeight, _ => History.read { h with unannounced := false } s .height
  | .readWidth, _ => h.read s .width
  | .rereadHeight, _ => h.reread .height
  | .rereadWidth, _ => h.reread .width
  | .readMaxBitrate, _ => h.reread .maxBitrate
  | .readRate, _ => h.reread .rate
  | _, _ => h

end History

/-- `convert` does not find the flag down behind a size that was dirty when it read it, and `setParam`
does not raise the flag in a refresh that has read a field before it was written, nor set a maximal
bitrate. -/
def Timely (x : Encoding × History) : Access → Prop
  | .testRefresh => x.1.param.mIsRefresh = true ∨ x.2.unannounced = false
  | .setRefresh => ∀ f, x.1.converter.hasReread f = true → x.2.dirty f = false
  | .setMaxBitrate => ∀ param, x.1.setter = .rateSet param →
      param.maxBitrate ≤ x.1.param.mBaseBitrate
  | _ => True

instance {p : Field → Prop} [DecidablePred p] : Decidable (∀ f, p f) :=
  decidable_of_iff (p .height ∧ p .width ∧ p .rate ∧ p .maxBitrate)
    ⟨fun ⟨hh, hw, hr, hm⟩ f => by cases f <;> assumption, fun h => ⟨h _, h _, h _, h _⟩⟩

instance (x : Encoding × History) : (e : Access) → Decidable (Timely x e)
  | .setMaxBitrate =>
      match hpc : x.1.setter with
      | .rateSet param =>
          decidable_of_iff (param.maxBitrate ≤ x.1.param.mBaseBitrate) (by simp [Timely, hpc])
      | .idle | .heightSet _ | .widthSet _ | .maxBitrateSet _ =>
          isTrue (by simp [Timely, hpc])
  | .testRefresh =>
      inferInstanceAs (Decidable (x.1.param.mIsRefresh = true ∨ x.2.unannounced = false))
  | .setRefresh =>
      inferInstanceAs (Decidable (∀ f, x.1.converter.hasReread f = true → x.2.dirty f = false))
  | .setHeight _ | .setWidth | .setRate | .readHeight | .readWidth | .rereadHeight
  | .rereadWidth | .readMaxBitrate | .readRate | .setEncoderParam | .clearRefresh | .scale _
  | .encode => inferInstanceAs (Decidable True)

/-- What the encoder has of a field is what is set. -/
def EncoderParam.Agrees (enc : EncoderParam) (c : TdCodecParam) (f : Field) : Prop :=
  ∀ v, enc.get f = some v → v = c.get f

theorem EncoderParam.Agrees.congr {enc : EncoderParam} {c c' : TdCodecParam} {f : Field}
    (h : enc.Agrees c f) (hsame : c'.get f = c.get f) : enc.Agrees c' f :=
  fun v hv => (h v hv).trans hsame.symm

/-- What `convert` holds at each of its steps. -/
def ConverterOk (s : Encoding) (h : History) : Prop :=
  match s.converter with
  | .idle => True
  | .heightRead height => s.param.mIsRefresh = false → h.unannounced = false →
      ∃ enc, s.encoder = some enc ∧ enc.iPicHeight = height
  | .sizeRead height width => s.param.mIsRefresh = false → h.unannounced = false →
      s.HasSize height width
  | .refreshing got => ∀ f x, got.get f = some x → h.dirty f = false → x = s.param.get f
  | .initialised height width => ∃ enc, s.encoder = some enc ∧
      (enc.iPicHeight = height ∧ enc.iPicWidth = width) ∧
        ∀ f, h.dirty f = false → enc.Agrees s.param f
  | .prepared height width => s.HasSize height width
  | .scaled height width => s.HasSize height width

/-- The encoder has the fields that are not dirty, unless a refresh is announced or in progress; a
field is dirty only until the `setParam` at work announces it and the refresh reads it. -/
structure Sound (s : Encoding) (h : History) : Prop where
  settled : s.param.mIsRefresh = false → s.converter.isRefreshing = false →
    ∃ enc, s.encoder = some enc ∧ ∀ f, h.dirty f = false → enc.Agrees s.param f
  announced : ∀ f, h.dirty f = true →
    s.setter.hasSet f = true ∨ (s.param.mIsRefresh = true ∧ s.converter.hasReread f = false)
  converter : ConverterOk s h
  noBitrate : h.bitrateSet = false

variable {s s' : Encoding} {e : Access} {h h' : History}

private theorem set_sound {param : TdCodecParam} {setter : SetterPc}
    (hclean : ∀ g, h'.dirty g = false → h.dirty g = false ∧ param.get g = s.param.get g)
    (hdirty : ∀ g, h'.dirty g = true → h.dirty g = true ∨ setter.hasSet g = true)
    (hkept : ∀ g, s.setter.hasSet g = true → setter.hasSet g = true)
    (hflag : param.mIsRefresh = s.param.mIsRefresh)
    (hunannounced : h'.unannounced = h.unannounced) (hbitrate : h'.bitrateSet = h.bitrateSet)
    (hsound : Sound s h) : Sound { s with param := param, setter := setter } h' := by
  constructor
  · intro hdown hquiet
    obtain ⟨enc, henc, hall⟩ := hsound.settled (hflag.symm.trans hdown) hquiet
    refine ⟨enc, henc, fun g hg => ?_⟩
    obtain ⟨hold, hsame⟩ := hclean g hg
    exact (hall g hold).congr hsame
  · intro g hg
    rcases hdirty g hg with hold | hset
    · rcases hsound.announced g hold with hset | ⟨hup, hunread⟩
      · exact Or.inl (hkept g hset)
      · exact Or.inr ⟨hflag.trans hup, hunread⟩
    · exact Or.inl hset
  · have hok := hsound.converter
    unfold ConverterOk at hok ⊢
    cases hpc : s.converter with
    | idle => trivial
    | heightRead height | sizeRead height width =>
        simp only [hpc, hflag, hunannounced] at hok ⊢
        exact hok
    | refreshing got =>
        simp only [hpc] at hok ⊢
        intro g x hx hg
        obtain ⟨hold, hsame⟩ := hclean g hg
        exact (hok g x hx hold).trans hsame.symm
    | initialised height width =>
        simp only [hpc] at hok ⊢
        obtain ⟨enc, henc, hsize, hall⟩ := hok
        refine ⟨enc, henc, hsize, fun g hg => ?_⟩
        obtain ⟨hold, hsame⟩ := hclean g hg
        exact (hall g hold).congr hsame
    | prepared height width | scaled height width =>
        simp only [hpc] at hok ⊢
        exact hok
  · exact hbitrate.trans hsound.noBitrate

private theorem write_sound {f : Field} {param : TdCodecParam} {setter : SetterPc}
    (hother : ∀ g, g ≠ f → param.get g = s.param.get g) (hset : setter.hasSet f = true)
    (hkept : ∀ g, s.setter.hasSet g = true → setter.hasSet g = true)
    (hflag : param.mIsRefresh = s.param.mIsRefresh) (hsound : Sound s h) :
    Sound { s with param := param, setter := setter } (h.write f) := by
  refine set_sound (h := h) (fun g hg => ?_) (fun g hg => ?_) hkept hflag rfl rfl hsound
  · have hne : g ≠ f := by
      rintro rfl
      simp [History.write] at hg
    simp only [History.write, Function.update_of_ne hne] at hg
    exact ⟨hg, hother g hne⟩
  · by_cases hgf : g = f
    · subst hgf
      exact Or.inr hset
    · simp only [History.write, Function.update_of_ne hgf] at hg
      exact Or.inl hg

private theorem setRate_sound {param : CodecParam} (hpc : s.setter = .widthSet param)
    (hsound : Sound s h) :
    Sound { s with param := s.param.setRate param, setter := .rateSet param }
      (h.after s .setRate) := by
  have hkept (g : Field) (hg : s.setter.hasSet g = true) :
      (SetterPc.rateSet param).hasSet g = true := by
    rw [hpc] at hg
    cases g <;> simp_all [SetterPc.hasSet]
  have hafter : h.after s .setRate = if param.rate < 15 then h.write .rate else h := by
    simp only [History.after, hpc]
  rw [hafter]
  by_cases hrate : param.rate < 15
  · rw [TdCodecParam.setRate, if_pos hrate, if_pos hrate]
    refine write_sound (fun g hg => ?_) rfl hkept rfl hsound
    cases g with
    | rate => exact absurd rfl hg
    | _ => rfl
  · rw [TdCodecParam.setRate, if_neg hrate, if_neg hrate]
    exact set_sound (fun _ hg => ⟨hg, rfl⟩) (fun _ => Or.inl) hkept rfl rfl rfl hsound

private theorem setMaxBitrate_sound {param : CodecParam} (hsound : Sound s h)
    (hpc : s.setter = .rateSet param) (hlow : param.maxBitrate ≤ s.param.mBaseBitrate) :
    Sound { s with param := s.param.setMaxBitrate param, setter := .maxBitrateSet param }
      (h.after s .setMaxBitrate) := by
  have hafter : h.after s .setMaxBitrate = h := by
    simp only [History.after, hpc, if_neg (Int.not_lt.mpr hlow)]
  rw [hafter, TdCodecParam.setMaxBitrate, if_neg (Int.not_lt.mpr hlow)]
  exact set_sound (fun _ hg => ⟨hg, rfl⟩) (fun _ => Or.inl) (fun _ _ => rfl) rfl rfl rfl hsound

private theorem setRefresh_sound (hsound : Sound s h)
    (htimely : ∀ f, s.converter.hasReread f = true → h.dirty f = false) :
    Sound { s with param := s.param.setCodecParamRefresh true, setter := .idle } h := by
  have hsame (f : Field) : (s.param.setCodecParamRefresh true).get f = s.param.get f := by
    cases f <;> rfl
  refine ⟨nofun, fun f hf => Or.inr ⟨rfl, ?_⟩, ?_, hsound.noBitrate⟩
  · by_contra hread
    rw [htimely f (by simpa using hread)] at hf
    cases hf
  · have hok := hsound.converter
    unfold ConverterOk at hok ⊢
    cases hpc : s.converter with
    | idle => trivial
    | heightRead height | sizeRead height width => exact nofun
    | refreshing got =>
        simp only [hpc, hsame] at hok ⊢
        exact hok
    | initialised height width =>
        simp only [hpc] at hok ⊢
        obtain ⟨enc, henc, hsize, hall⟩ := hok
        exact ⟨enc, henc, hsize, fun f hf => (hall f hf).congr (hsame f)⟩
    | prepared height width | scaled height width =>
        simp only [hpc] at hok ⊢
        exact hok

private theorem setter_sound (hsound : Sound s h) (htimely : Timely (s, h) e)
    (hstep : s.setterStep e = some s') : Sound s' (h.after s e) := by
  cases e with
  | setHeight param =>
      cases hpc : s.setter with
      | idle =>
          simp only [Encoding.setterStep, hpc, Option.some.injEq] at hstep
          subst hstep
          refine write_sound (f := .height) (fun g hg => ?_) rfl (fun g hg => ?_) rfl hsound
          · cases g with
            | height => exact absurd rfl hg
            | _ => rfl
          · rw [hpc] at hg
            cases hg
      | _ => simp [Encoding.setterStep, hpc] at hstep
  | setWidth =>
      cases hpc : s.setter with
      | heightSet param =>
          simp only [Encoding.setterStep, hpc, Option.some.injEq] at hstep
          subst hstep
          refine write_sound (f := .width) (fun g hg => ?_) rfl (fun g hg => ?_) rfl hsound
          · cases g with
            | width => exact absurd rfl hg
            | _ => rfl
          · rw [hpc] at hg
            cases g <;> simp_all [SetterPc.hasSet]
      | _ => simp [Encoding.setterStep, hpc] at hstep
  | setRate =>
      cases hpc : s.setter with
      | widthSet param =>
          simp only [Encoding.setterStep, hpc, Option.some.injEq] at hstep
          subst hstep
          exact setRate_sound hpc hsound
      | _ => simp [Encoding.setterStep, hpc] at hstep
  | setMaxBitrate =>
      cases hpc : s.setter with
      | rateSet param =>
          simp only [Encoding.setterStep, hpc, Option.some.injEq] at hstep
          subst hstep
          exact setMaxBitrate_sound hsound hpc (htimely param hpc)
      | _ => simp [Encoding.setterStep, hpc] at hstep
  | setRefresh =>
      cases hpc : s.setter with
      | maxBitrateSet param =>
          simp only [Encoding.setterStep, hpc, Option.some.injEq] at hstep
          subst hstep
          exact setRefresh_sound hsound htimely
      | _ => simp [Encoding.setterStep, hpc] at hstep
  | _ => cases hstep

private theorem readHeight_sound (hsound : Sound s h) (hpc : s.converter = .idle) :
    ConverterOk { s with converter := .heightRead s.param.mHeight } (h.after s .readHeight) := by
  intro hdown hannounced
  have hclean : h.dirty .height = false := by
    simpa [History.after, History.read, show s.param.mIsRefresh = false from hdown] using hannounced
  obtain ⟨enc, henc, hall⟩ := hsound.settled hdown (by rw [hpc]; rfl)
  exact ⟨enc, henc, hall .height hclean _ rfl⟩

private theorem readWidth_sound (hsound : Sound s h) {height : Int}
    (hpc : s.converter = .heightRead height) :
    ConverterOk { s with converter := .sizeRead height s.param.mWidth } (h.after s .readWidth) := by
  intro hdown hannounced
  have hboth : h.unannounced = false ∧ h.dirty .width = false := by
    simpa [History.after, History.read, show s.param.mIsRefresh = false from hdown] using hannounced
  have hok := hsound.converter
  simp only [ConverterOk, hpc] at hok
  obtain ⟨enc, henc, hheight⟩ := hok hdown hboth.1
  obtain ⟨enc', henc', hall⟩ := hsound.settled hdown (by rw [hpc]; rfl)
  obtain rfl := Option.some.inj (henc.symm.trans henc')
  exact ⟨enc, henc, hheight, hall .width hboth.2 _ rfl⟩

private theorem Sound.move (hsound : Sound s h) {converter : ConverterPc}
    (hquiet : s.converter.isRefreshing = false) (hread : ∀ f, converter.hasReread f = false)
    (hdirty : h'.dirty = h.dirty) (hbitrate : h'.bitrateSet = h.bitrateSet)
    (hok : ConverterOk { s with converter := converter } h') :
    Sound { s with converter := converter } h' := by
  refine ⟨fun hdown _ => ?_, fun f hf => ?_, hok, hbitrate.trans hsound.noBitrate⟩
  · rw [hdirty]
    exact hsound.settled hdown hquiet
  · rw [hdirty] at hf
    exact (hsound.announced f hf).imp_right fun hup => ⟨hup.1, hread f⟩

private theorem after_reread {f : Field} (hread : e.rereads = some f) : h.after s e = h.reread f := by
  cases e <;> cases hread <;> rfl

private theorem reread_sound {f : Field} {got got' : Reread} (hsound : Sound s h)
    (hpc : s.converter = .refreshing got) (hnew : got'.get f = some (s.param.get f))
    (hold : ∀ g, g ≠ f → got'.get g = got.get g) :
    Sound { s with converter := .refreshing got' } (h.reread f) := by
  have hok := hsound.converter
  simp only [ConverterOk, hpc] at hok
  have hother {g : Field} (hg : g ≠ f) : (h.reread f).dirty g = h.dirty g :=
    Function.update_of_ne hg ..
  refine ⟨nofun, fun g hg => ?_, fun g x hx hclean => ?_, hsound.noBitrate⟩
  · have hne : g ≠ f := by
      rintro rfl
      simp [History.reread] at hg
    rw [hother hne] at hg
    have hread : (ConverterPc.refreshing got').hasReread g = s.converter.hasReread g := by
      rw [hpc, ConverterPc.hasReread, ConverterPc.hasReread, hold g hne]
    exact (hsound.announced g hg).imp_right fun hup => ⟨hup.1, hread.trans hup.2⟩
  · by_cases hgf : g = f
    · subst hgf
      exact Option.some.inj (hx.symm.trans hnew)
    · rw [hother hgf] at hclean
      exact hok g x ((hold g hgf).symm.trans hx) hclean

private theorem setEncoderParam_sound (hsound : Sound s h) {height width maxBitrate rate : Int}
    (hpc : s.converter = .refreshing ⟨some height, some width, some maxBitrate, some rate⟩) :
    Sound { s with
      encoder := some (encoderParam width height 400000 maxBitrate rate)
      converter := .initialised height width } h := by
  have hok := hsound.converter
  simp only [ConverterOk, hpc] at hok
  refine ⟨nofun, fun f hf => ?_, ⟨_, rfl, ⟨rfl, rfl⟩, fun f hclean v hv => hok f v ?_ hclean⟩,
    hsound.noBitrate⟩
  · refine (hsound.announced f hf).imp_right fun hup => ?_
    rw [hpc] at hup
    cases f <;> cases hup.2
  · cases f <;> cases hv <;> rfl

private theorem clearRefresh_sound (hsound : Sound s h) {height width : Int}
    (hpc : s.converter = .initialised height width) :
    Sound { s with
      param := s.param.setCodecParamRefresh false, converter := .prepared height width } h := by
  have hok := hsound.converter
  simp only [ConverterOk, hpc] at hok
  obtain ⟨enc, henc, hsize, hall⟩ := hok
  refine ⟨fun _ _ => ⟨enc, henc, fun f hclean => (hall f hclean).congr ?_⟩, fun f hf => ?_,
    ⟨enc, henc, hsize⟩, hsound.noBitrate⟩
  · cases f <;> rfl
  · refine (hsound.announced f hf).imp_right fun hup => ?_
    rw [hpc] at hup
    cases hup.2

private theorem converter_sound (hsound : Sound s h) (htimely : Timely (s, h) e)
    (hstep : s.Converts e s') : Sound s' (h.after s e) := by
  have hok := hsound.converter
  cases hstep with
  | readHeight hpc =>
      exact hsound.move (by rw [hpc]; rfl) (fun _ => rfl) rfl rfl (readHeight_sound hsound hpc)
  | readWidth height hpc =>
      exact hsound.move (by rw [hpc]; rfl) (fun _ => rfl) rfl rfl (readWidth_sound hsound hpc)
  | testUp height width hpc hup =>
      refine ⟨nofun, fun f hf => Or.inr ⟨hup, ?_⟩, fun f x hx => ?_, hsound.noBitrate⟩
      · cases f <;> rfl
      · cases f <;> cases hx
  | testDown height width hpc hdown =>
      simp only [ConverterOk, hpc] at hok
      have hannounced : h.unannounced = false := htimely.resolve_left (by simp [hdown])
      exact hsound.move (by rw [hpc]; rfl) (fun _ => rfl) rfl rfl (hok hdown hannounced)
  | reread e f got got' hpc hread hnew hold =>
      rw [after_reread hread]
      exact reread_sound hsound hpc hnew hold
  | setEncoderParam height width maxBitrate rate hpc => exact setEncoderParam_sound hsound hpc
  | clearRefresh height width hpc => exact clearRefresh_sound hsound hpc
  | scaleFailed height width hpc | encode height width hpc =>
      exact hsound.move (by rw [hpc]; rfl) (fun _ => rfl) rfl rfl trivial
  | scale height width hpc =>
      simp only [ConverterOk, hpc] at hok
      exact hsound.move (by rw [hpc]; rfl) (fun _ => rfl) rfl rfl hok

/-- A step of either thread keeps the agreement. -/
theorem sound_step (hsound : Sound s h) (htimely : Timely (s, h) e) (hstep : step s e = some s') :
    Sound s' (h.after s e) := by
  unfold step at hstep
  split at hstep
  · exact converter_sound hsound htimely (Encoding.converterStep_cases hstep)
  · exact setter_sound hsound htimely hstep

theorem pictureFits (hok : ConverterOk s h) (e : Access) : s.PictureFits e := by
  cases e with
  | encode =>
      intro height width hpc
      simp only [ConverterOk, hpc] at hok
      exact hok
  | _ => trivial

/-- What the encoder has is what is set. -/
def HasParams (s : Encoding) : Prop := ∃ enc, s.encoder = some enc ∧ ∀ f, enc.Agrees s.param f

theorem HasParams.usesParams (h : HasParams s) : s.UsesParams false := by
  obtain ⟨enc, henc, hall⟩ := h
  refine ⟨enc, henc, fun f hf => ?_⟩
  cases f with
  | maxBitrate => exact absurd (hf rfl) Bool.false_ne_true
  | height => exact congrArg some (hall .height _ rfl)
  | width => exact congrArg some (hall .width _ rfl)
  | rate => exact congrArg some (hall .rate _ rfl)

/-- No `setParam` is in progress, and what `convert` has read so far is what is set. -/
def Quiet (s : Encoding) : Prop :=
  s.setter = .idle ∧ match s.converter with
    | .heightRead _ | .sizeRead _ _ => s.param.mIsRefresh = false → HasParams s
    | .refreshing got => ∀ f x, got.get f = some x → x = s.param.get f
    | _ => HasParams s

private def rereading : List Access :=
  [.readHeight, .readWidth, .testRefresh, .rereadHeight, .rereadWidth, .readMaxBitrate, .readRate]

private theorem hasParams_of_sound (hsound : Sound s h) (hsetter : s.setter = .idle)
    (hconverter : s.converter = .idle) (hdown : s.param.mIsRefresh = false) : HasParams s := by
  obtain ⟨enc, henc, hall⟩ := hsound.settled hdown (by rw [hconverter]; rfl)
  refine ⟨enc, henc, fun f => hall f ?_⟩
  by_contra hdirty
  rcases hsound.announced f (by simpa using hdirty) with hset | ⟨hup, -⟩
  · rw [hsetter] at hset
    cases hset
  · rw [hdown] at hup
    cases hup

private theorem quiet_start (hsound : Sound s h) (hsetter : s.setter = .idle)
    (hconverter : s.converter = .idle) (hstep : s.Converts e s') : Quiet s' := by
  have hused := hasParams_of_sound hsound hsetter hconverter
  cases hstep with
  | readHeight hpc => exact ⟨hsetter, hused⟩
  | _ => simp_all

private theorem quiet_step (hquiet : Quiet s) (hstep : s.Converts e s') : Quiet s' := by
  obtain ⟨hsetter, hheld⟩ := hquiet
  cases hstep with
  | readHeight hpc =>
      simp only [hpc] at hheld
      exact ⟨hsetter, fun _ => hheld⟩
  | readWidth height hpc =>
      simp only [hpc] at hheld
      exact ⟨hsetter, hheld⟩
  | testUp height width hpc hup =>
      refine ⟨hsetter, fun f x hx => ?_⟩
      cases f <;> cases hx
  | testDown height width hpc hdown =>
      simp only [hpc] at hheld
      exact ⟨hsetter, hheld hdown⟩
  | reread e f got got' hpc hread hnew hold =>
      simp only [hpc] at hheld
      refine ⟨hsetter, fun g x hx => ?_⟩
      by_cases hgf : g = f
      · subst hgf
        exact Option.some.inj (hx.symm.trans hnew)
      · exact hheld g x ((hold g hgf).symm.trans hx)
  | setEncoderParam height width maxBitrate rate hpc =>
      simp only [hpc] at hheld
      refine ⟨hsetter, _, rfl, fun f v hv => hheld f v ?_⟩
      cases f <;> cases hv <;> rfl
  | clearRefresh height width hpc =>
      simp only [hpc] at hheld
      obtain ⟨enc, henc, hall⟩ := hheld
      refine ⟨hsetter, enc, henc, fun f => (hall f).congr ?_⟩
      cases f <;> rfl
  | scaleFailed height width hpc | scale height width hpc | encode height width hpc =>
      simp only [hpc] at hheld
      exact ⟨hsetter, hheld⟩

private theorem converts_of_step (hconvert : e.isConvert = true) (hstep : step s e = some s') :
    s.Converts e s' := by
  rw [step, if_pos hconvert] at hstep
  exact Encoding.converterStep_cases hstep

private theorem quiet_run {events : List Access} (hconvert : ∀ e ∈ events, e.isConvert = true)
    (hquiet : Quiet s) (hrun : Machine.run step s events = some s') : Quiet s' := by
  induction events generalizing s with
  | nil =>
      obtain rfl := Option.some.inj hrun
      exact hquiet
  | cons e events ih =>
      obtain ⟨t, ht, hrest⟩ := Option.bind_eq_some_iff.mp hrun
      have hstep := converts_of_step (hconvert e (List.mem_cons_self ..)) ht
      exact ih (fun e' he' => hconvert e' (List.mem_cons_of_mem _ he')) (quiet_step hquiet hstep)
        hrest

theorem nextFrameApplies (hsound : Sound s h) : NextFrameApplies (s, h) := by
  intro hsetter hconverter events s' hne hconvert hrun hidle
  cases events with
  | nil => exact absurd rfl hne
  | cons e events =>
      obtain ⟨t, ht, hrest⟩ := Option.bind_eq_some_iff.mp hrun
      have hfirst := converts_of_step (hconvert e (List.mem_cons_self ..)) ht
      have hquiet : Quiet s' :=
        quiet_run (fun e' he' => hconvert e' (List.mem_cons_of_mem _ he'))
          (quiet_start hsound hsetter hconverter hfirst) hrest
      have hheld : HasParams s' := by simpa only [hidle] using hquiet.2
      rw [hsound.noBitrate]
      exact hheld.usesParams

/-- A maximal bitrate that is set gets lost, whatever `convert` overlaps with. -/
theorem not_nextFrameApplies (hbitrate : h.bitrateSet = true) (hsetter : s.setter = .idle)
    (hconverter : s.converter = .idle) : ¬ NextFrameApplies (s, h) := by
  intro happlies
  have hlost (s' : Encoding) : ¬ s'.UsesParams h.bitrateSet := by
    intro huses
    obtain ⟨enc, -, hall⟩ := huses
    cases hall .maxBitrate fun _ => hbitrate
  obtain ⟨⟨width, height, rate, maxBitrate, baseBitrate, up⟩, encoder, setter, converter⟩ := s
  cases hconverter
  cases up with
  | false =>
      exact hlost _ (happlies hsetter rfl [.readHeight, .readWidth, .testRefresh, .scale true] _
        (by simp) (by decide) rfl rfl)
  | true =>
      exact hlost _ (happlies hsetter rfl
        (rereading ++ [.setEncoderParam, .clearRefresh, .scale true]) _ (by simp [rereading])
        (by decide) rfl rfl)

private def setting (param : CodecParam) : List Access :=
  [.setHeight param, .setWidth, .setRate, .setMaxBitrate, .setRefresh]

private def initialising : List Access := [.setEncoderParam, .clearRefresh, .scale false, .encode]

theorem sound_start {param : CodecParam} (hbitrate : param.maxBitrate ≤ 150000) :
    Sound (Encoding.start param) (History.start param) :=
  ⟨nofun, nofun, trivial, by simpa [History.start] using hbitrate⟩

/-- In a run that sets no maximal bitrate and whose overlaps are timely, every picture has the size of
the encoder, and no parameters that are set get lost. -/
theorem encoder_follows (param : CodecParam) (events : List Access)
    (hbitrate : param.maxBitrate ≤ 150000)
    (htimely : StepsMeet (recorded step History.after) Timely
      (Encoding.start param, History.start param) events) :
    StepsMeet step Encoding.PictureFits (Encoding.start param) events ∧
      StatesHold (recorded step History.after) NextFrameApplies
        (Encoding.start param, History.start param) events := by
  have hinv (x : Encoding × History) (e : Access) (x' : Encoding × History) (hx : Sound x.1 x.2)
      (ht : Timely x e) (hstep : recorded step History.after x e = some x') : Sound x'.1 x'.2 := by
    obtain ⟨hs, hh⟩ := recorded_eq_some.mp hstep
    rw [← hh]
    exact sound_step hx ht hs
  have hstart := sound_start hbitrate
  constructor
  · exact (htimely.imp (D := fun x e => x.1.PictureFits e) hinv
      (fun x e _ hx _ _ => pictureFits hx.converter e) hstart).of_recorded
  · exact (htimely.statesHold hinv hstart).mono fun x hx => nextFrameApplies hx

/-- A second `setParam` between two pictures. -/
theorem newSize_followed :
    StepsMeet step Encoding.PictureFits (Encoding.start ⟨272, 480, 10, 100000⟩)
        (rereading ++ initialising ++ setting ⟨720, 1280, 12, 120000⟩ ++ rereading ++ initialising) ∧
      StatesHold (recorded step History.after) NextFrameApplies
        (Encoding.start ⟨272, 480, 10, 100000⟩, History.start ⟨272, 480, 10, 100000⟩)
        (rereading ++ initialising ++ setting ⟨720, 1280, 12, 120000⟩ ++ rereading ++ initialising) :=
  encoder_follows _ _ (by decide) (by decide)

/-- `convert` reads the new height before the flag is up; or it clears the flag of a `setParam` that
came behind its reads; or a maximal bitrate is set with nothing in between. -/
theorem overlap_not_followed :
    ¬ StepsMeet step Encoding.PictureFits (Encoding.start ⟨272, 480, 10, 100000⟩)
        (rereading ++ initialising ++ [.setHeight ⟨720, 1280, 12, 120000⟩, .readHeight, .readWidth,
          .testRefresh, .scale false] ++ [.encode]) ∧
      ¬ StatesHold (recorded step History.after) NextFrameApplies
        (Encoding.start ⟨272, 480, 10, 100000⟩, History.start ⟨272, 480, 10, 100000⟩)
        (rereading ++ setting ⟨720, 1280, 12, 120000⟩ ++ initialising) ∧
      ¬ StatesHold (recorded step History.after) NextFrameApplies
        (Encoding.start ⟨272, 480, 10, 100000⟩, History.start ⟨272, 480, 10, 100000⟩)
        (rereading ++ initialising ++ setting ⟨272, 480, 12, 200000⟩) := by
  refine ⟨?_, ?_, ?_⟩
  · intro hfits
    obtain ⟨enc, henc, hheight, -⟩ := hfits.last rfl rfl 720 480 rfl
    obtain rfl := Option.some.inj henc
    cases hheight
  · intro happlies
    have hnext := happlies.last rfl rfl rfl
      [.readHeight, .readWidth, .testRefresh, .scale false, .encode] _ (by simp) (by decide) rfl rfl
    obtain ⟨enc, henc, hall⟩ := hnext
    obtain rfl := Option.some.inj henc
    cases hall .height nofun
  · intro happlies
    exact not_nextFrameApplies rfl rfl rfl (happlies.last rfl)

end GMProxy.Codec
