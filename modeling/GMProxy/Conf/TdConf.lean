import Mathlib.Algebra.Group.Int.Defs
import GMProxy.Library.Decimal
import GMProxy.Conf.SetValue

/-!
# Saving and reading the configuration

`TdConf` over the configuration file. `saveConfig` sets nine of the ten fields in the sections that
were loaded before; `readConfig` reads the same nine.
-/

namespace GMProxy.Conf

open Inifile Decimal

structure GB28121Ctx where
  mDevideId : String := "31011500991320000046"
  mServerSipId : String := "34020000002000000001"
  mServerSipDomain : String := "3402000000"
  mSipServerIp : String := "192.168.16.195"
  mSipServerPort : Int32 := 15060
  mSipUserName : String := "admin"
  mSipPassWd : String := "admin123"
  mExpires : Int32 := 3600
  mBasePort : Int32 := 5060
  mManufacture : String := "TDWL"
deriving DecidableEq

/-- The fields that are saved, in the order of `saveConfig`. -/
inductive Setting where
  | devideId
  | serverSipId
  | sipServerIp
  | sipServerPort
  | sipUserName
  | sipPassWd
  | expires
  | basePort
  | manufacture
deriving DecidableEq, Repr

namespace Setting

def all : List Setting :=
  [devideId, serverSipId, sipServerIp, sipServerPort, sipUserName, sipPassWd, expires, basePort,
    manufacture]

def key : Setting → Text
  | devideId => "DevideId".toList
  | serverSipId => "ServerSipId".toList
  | sipServerIp => "SipServerIp".toList
  | sipServerPort => "SipServerPort".toList
  | sipUserName => "SipUserName".toList
  | sipPassWd => "SipPassWd".toList
  | expires => "Expires".toList
  | basePort => "BasePort".toList
  | manufacture => "Manufacture".toList

end Setting

def gb28181 : Text := "GB28181".toList

/-- `snprintf` with `%d`. -/
def intText (value : Int32) : Text := decimal value.toInt

/-- `atoi`: the leading number as a `long`, cut to an `int`. -/
def atoi (text : Text) : Int32 :=
  Int32.ofInt (max (-2 ^ 63) (min (2 ^ 63 - 1) (parse (text.dropWhile isspace))))

/-- The text under which a field is saved. -/
def GB28121Ctx.text (ctx : GB28121Ctx) : Setting → Text
  | .devideId => ctx.mDevideId.toList
  | .serverSipId => ctx.mServerSipId.toList
  | .sipServerIp => ctx.mSipServerIp.toList
  | .sipServerPort => intText ctx.mSipServerPort
  | .sipUserName => ctx.mSipUserName.toList
  | .sipPassWd => ctx.mSipPassWd.toList
  | .expires => intText ctx.mExpires
  | .basePort => intText ctx.mBasePort
  | .manufacture => ctx.mManufacture.toList

/-- The fields as keys with values. -/
def GB28121Ctx.keyValues (ctx : GB28121Ctx) : List (Text × Text) :=
  Setting.all.map fun s => (s.key, ctx.text s)

/-- The sections after the nine calls of `saveConfig`. -/
def saved (ini : IniFile) (ctx : GB28121Ctx) : IniFile := setValues ini gb28181 ctx.keyValues

def getStringValue (ini : IniFile) (s : Setting) (value : String) : String :=
  ((getValue ini gb28181 s.key).map String.ofList).getD value

/-- `GetIntValue` stores a number also when it finds no value. -/
def getIntValue (ini : IniFile) (s : Setting) : Int32 :=
  atoi ((getValue ini gb28181 s.key).getD [])

structure TdConf where
  mIni : IniFile
  mGB28121Ctx : GB28121Ctx

namespace TdConf

/-- A new `TdConf`. -/
def new : TdConf := ⟨[], {}⟩

variable (conf : TdConf)

/-- `saveConfig`, with the file that it leaves. -/
def saveConfig : TdConf × Text :=
  let mIni := saved conf.mIni conf.mGB28121Ctx
  ({ conf with mIni := mIni }, saveAs mIni)

/-- The part of `readConfig` behind `Load`. -/
def getValues : TdConf :=
  { conf with
    mGB28121Ctx := { conf.mGB28121Ctx with
      mDevideId := getStringValue conf.mIni .devideId conf.mGB28121Ctx.mDevideId
      mServerSipId := getStringValue conf.mIni .serverSipId conf.mGB28121Ctx.mServerSipId
      mSipServerIp := getStringValue conf.mIni .sipServerIp conf.mGB28121Ctx.mSipServerIp
      mSipServerPort := getIntValue conf.mIni .sipServerPort
      mSipUserName := getStringValue conf.mIni .sipUserName conf.mGB28121Ctx.mSipUserName
      mSipPassWd := getStringValue conf.mIni .sipPassWd conf.mGB28121Ctx.mSipPassWd
      mExpires := getIntValue conf.mIni .expires
      mBasePort := getIntValue conf.mIni .basePort
      mManufacture := getStringValue conf.mIni .manufacture conf.mGB28121Ctx.mManufacture } }

/-- `readConfig`, with the file that it leaves; there may be none before. -/
def readConfig (file : Option Text) : TdConf × Option Text :=
  let (mIni, err) := load file
  let conf := { conf with mIni := mIni }
  match err with
  | none => (conf.getValues, file)
  | some _ =>
      let (conf, saved) := conf.saveConfig
      (conf.getValues, some saved)

end TdConf

/-- `readConfig`, or new values for the context and `saveConfig`, as the HTTP handler does. -/
inductive ConfEvent where
  | readConfig (file : Option Text)
  | setGB28181config (ctx : GB28121Ctx)

def TdConf.step (conf : TdConf) : ConfEvent → TdConf
  | .readConfig file => (conf.readConfig file).1
  | .setGB28181config ctx => ({ conf with mGB28121Ctx := ctx } : TdConf).saveConfig.1

/-- The configuration after any calls. -/
def TdConf.after (events : List ConfEvent) : TdConf := events.foldl TdConf.step TdConf.new

variable {ini : IniFile} {ctx ctx' : GB28121Ctx} {conf : TdConf} {s : Setting} {value : Int32}
  {file : Option Text}

theorem getValues_mIni (conf : TdConf) : conf.getValues.mIni = conf.mIni := rfl

theorem saveConfig_eq (conf : TdConf) : conf.saveConfig =
    ({ conf with mIni := saved conf.mIni conf.mGB28121Ctx },
      saveAs (saved conf.mIni conf.mGB28121Ctx)) := rfl

theorem readConfig_loaded (h : load file = (ini, none)) :
    conf.readConfig file = (({ conf with mIni := ini } : TdConf).getValues, file) := by
  rw [TdConf.readConfig, h]

theorem readConfig_rejected {err : IniError} (h : load file = (ini, some err)) :
    conf.readConfig file =
      (({ conf with mIni := saved ini conf.mGB28121Ctx } : TdConf).getValues,
        some (saveAs (saved ini conf.mGB28121Ctx))) := by
  rw [TdConf.readConfig, h]
  dsimp only
  rw [saveConfig_eq]

private theorem digit_kept {c : Char} (h : c.isDigit = true) : isspace c = false := by
  have hnot : c ∉ [' ', '\t', '\n', '\x0b', '\x0c', '\r'] := by
    simp only [List.mem_cons, List.not_mem_nil, or_false]
    rintro (rfl | rfl | rfl | rfl | rfl | rfl) <;> exact absurd h (by decide)
  exact decide_eq_false hnot

theorem intText_clean (value : Int32) : Clean (intText value) := by
  have hmem : ∀ c ∈ intText value, isspace c = false ∧ c ≠ commentDelimiter ∧ c ≠ delim := by
    intro c hc
    rcases mem_decimal hc with rfl | hdigit
    · decide
    · refine ⟨digit_kept hdigit, ?_, ?_⟩
      · rintro rfl
        exact absurd hdigit (by decide)
      · rintro rfl
        exact absurd hdigit (by decide)
  exact ⟨fun h => (hmem _ h).2.1 rfl, fun h => (hmem _ h).2.2 rfl,
    fun c hc => (hmem c (List.mem_of_mem_head? hc)).1, fun c hc => (hmem c (List.mem_of_getLast? hc)).1⟩

theorem atoi_intText (value : Int32) : atoi (intText value) = value := by
  have htrim : (intText value).dropWhile isspace = intText value := by
    have hhead := (intText_clean value).trimmed.head
    cases htext : intText value with
    | nil => rfl
    | cons c text =>
        rw [htext] at hhead
        exact List.dropWhile_cons_of_neg (by simp [hhead c rfl])
  have hlow := value.le_toInt
  have hhigh := value.toInt_lt
  have hclamp : max (-2 ^ 63) (min (2 ^ 63 - 1) value.toInt) = value.toInt := by omega
  rw [atoi, htrim, intText, parse_decimal, hclamp, Int32.ofInt_toInt]

theorem intText_injective {a b : Int32} (h : intText a = intText b) : a = b := by
  rw [← atoi_intText a, ← atoi_intText b, h]

theorem ctx_eq_iff : ctx = ctx' ↔
    ctx.mServerSipDomain = ctx'.mServerSipDomain ∧ ∀ s, ctx.text s = ctx'.text s := by
  constructor
  · rintro rfl
    exact ⟨rfl, fun _ => rfl⟩
  · rintro ⟨hdomain, htext⟩
    have hint : ∀ {a b : Int32}, intText a = intText b → a = b := intText_injective
    obtain ⟨a, b, c, d, e, f, g, h, i, j⟩ := ctx
    obtain ⟨a', b', c', d', e', f', g', h', i', j'⟩ := ctx'
    obtain rfl : a = a' := String.toList_inj.mp (htext .devideId)
    obtain rfl : b = b' := String.toList_inj.mp (htext .serverSipId)
    obtain rfl : c = c' := hdomain
    obtain rfl : d = d' := String.toList_inj.mp (htext .sipServerIp)
    obtain rfl : e = e' := hint (htext .sipServerPort)
    obtain rfl : f = f' := String.toList_inj.mp (htext .sipUserName)
    obtain rfl : g = g' := String.toList_inj.mp (htext .sipPassWd)
    obtain rfl : h = h' := hint (htext .expires)
    obtain rfl : i = i' := hint (htext .basePort)
    obtain rfl : j = j' := String.toList_inj.mp (htext .manufacture)
    rfl

end GMProxy.Conf
