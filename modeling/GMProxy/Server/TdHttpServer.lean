import GMProxy.Conf.RoundTrip
import GMProxy.Json.RoundTrip

/-!
# The HTTP routes

The handlers of `TdHttpServer` over the configuration and its file. A handler emits an event for the
SIP device or the channel manager and answers with a text; one that succeeds often answers with the
empty text, because its `contents` hides the one that is sent.
-/

namespace GMProxy.TdServer

open Conf Inifile Json11

/-- A `std::string` with one character for a byte. -/
def stringOf (value : Bytes) : String := String.ofList (value.map fun ch => Char.ofNat ch.toNat)

inductive Route where
  | setGB28181config
  | closeChannel
  | creatChannel2
  | login
  | setvideoparam
deriving DecidableEq

/-- What a handler emits. -/
inductive Notice where
  | modifyRegister
  | closeChannel (channel : String)
  | createChannel (channel : String)
  | setCodecParam (channel : String) (rate : Int32) (resolution : String) (maxBitrate : Int32)
deriving DecidableEq

/-- The configuration and `config.ini`. -/
structure HttpState where
  conf : TdConf
  confFile : Option Text

structure Request where
  route : Route
  body : Bytes

/-- What a request leaves, what it emits and what it answers. -/
structure Reply where
  state : HttpState
  notices : List Notice
  contents : Bytes

variable {δ : Type} (doubles : Doubles δ)

/-- The value that `Json::parse` returns. -/
def jsonData (body : Bytes) : Json δ :=
  match parse doubles body with
  | .ok value => value
  | .error _ => .nul

def refused : Bytes := ascii "\x7b\"code\":\"10000\"\x7d"

/-- The context that `setGB28181config` stores. -/
def postedCtx (jsonData : Json δ) : GB28121Ctx where
  mBasePort := (jsonData.member (ascii "SipLocalPort")).intValue doubles
  mDevideId := stringOf (jsonData.member (ascii "DevideId")).stringValue
  mServerSipId := stringOf (jsonData.member (ascii "SIPServerID")).stringValue
  mServerSipDomain := stringOf (jsonData.member (ascii "ServerSipDomain")).stringValue
  mSipServerIp := stringOf (jsonData.member (ascii "SipServerIp")).stringValue
  mSipServerPort := (jsonData.member (ascii "SipServerPort")).intValue doubles
  mSipUserName := stringOf (jsonData.member (ascii "SipUserName")).stringValue
  mSipPassWd := stringOf (jsonData.member (ascii "SipPassWd")).stringValue
  mExpires := (jsonData.member (ascii "Expires")).intValue doubles
  mManufacture := "TDWL"

/-- The part of a handler behind the check of its document. -/
def execute (route : Route) (jsonData : Json δ) (s : HttpState) : Reply :=
  match route with
  | .setGB28181config =>
      let (conf, saved) :=
        ({ s.conf with mGB28121Ctx := postedCtx doubles jsonData } : TdConf).saveConfig
      ⟨⟨conf, some saved⟩, [.modifyRegister], []⟩
  | .closeChannel =>
      ⟨s, [.closeChannel (stringOf (jsonData.member (ascii "channel")).stringValue)], []⟩
  | .creatChannel2 =>
      ⟨s, [.createChannel (stringOf (jsonData.member (ascii "channel")).stringValue)], []⟩
  | .login => ⟨s, [], ascii "\x7b\"code\":0,\"msg\":\"success\"\x7d"⟩
  | .setvideoparam =>
      ⟨s, [.setCodecParam (stringOf (jsonData.member (ascii "channel")).stringValue)
          ((jsonData.member (ascii "Rate")).intValue doubles)
          (stringOf (jsonData.member (ascii "Resolution")).stringValue)
          ((jsonData.member (ascii "MaxBitrate")).intValue doubles)],
        ascii "\x7b\"code\":\"0\"\x7d"⟩

/-- A handler; `login` does not look at its document. -/
def post (r : Request) (s : HttpState) : Reply :=
  if r.route ≠ .login ∧ (jsonData doubles r.body).isNull then ⟨s, [], refused⟩
  else execute doubles r.route (jsonData doubles r.body) s

/-- A server over a configuration file, which `getInstance` reads. -/
def start (file : Option Text) : HttpState :=
  let (conf, confFile) := TdConf.new.readConfig file
  ⟨conf, confFile⟩

/-- The state after requests. -/
def run (requests : List Request) (s : HttpState) : HttpState :=
  requests.foldl (fun s r => (post doubles r s).state) s

variable {doubles} {r : Request} {s : HttpState} {body : Bytes} {v : Json δ}

theorem jsonData_eq (hv : DocumentText doubles body v) : jsonData doubles body = v := by
  rw [jsonData, (parse_iff doubles body v).mpr hv]

theorem jsonData_refused (h : ∀ v, ¬ DocumentText doubles body v) : jsonData doubles body = .nul := by
  rw [jsonData]
  cases hparse : parse doubles body with
  | error e => rfl
  | ok v => exact absurd ((parse_iff doubles body v).mp hparse) (h v)

theorem isNull_iff {v : Json δ} : v.isNull = true ↔ v = .nul := by
  cases v <;> simp [Json.isNull]

theorem post_executed (hv : DocumentText doubles r.body v) (hnull : v ≠ .nul) :
    post doubles r s = execute doubles r.route v s := by
  rw [post, jsonData_eq hv, if_neg]
  rintro ⟨-, h⟩
  exact hnull (isNull_iff.mp h)

theorem post_refused (hroute : r.route ≠ .login) (h : ∀ v, DocumentText doubles r.body v → v = .nul) :
    post doubles r s = ⟨s, [], refused⟩ := by
  have hnull : jsonData doubles r.body = .nul := by
    by_cases hdoc : ∃ v, DocumentText doubles r.body v
    · obtain ⟨v, hv⟩ := hdoc
      rw [jsonData_eq hv, h v hv]
    · exact jsonData_refused fun v hv => hdoc ⟨v, hv⟩
  rw [post, hnull, if_pos ⟨hroute, rfl⟩]

/-- Every route but `login` executes a request exactly when its body is a document of another value
than null; else it changes nothing, emits nothing and says so. -/
theorem post_decides (doubles : Doubles δ) (r : Request) (s : HttpState) (hroute : r.route ≠ .login) :
    (∃ v, DocumentText doubles r.body v ∧ v ≠ .nul ∧ post doubles r s = execute doubles r.route v s ∧
        (post doubles r s).notices ≠ [] ∧ (post doubles r s).contents ≠ refused) ∨
      (∀ v, DocumentText doubles r.body v → v = .nul) ∧ post doubles r s = ⟨s, [], refused⟩ := by
  by_cases h : ∃ v, DocumentText doubles r.body v ∧ v ≠ .nul
  · obtain ⟨v, hv, hnull⟩ := h
    refine Or.inl ⟨v, hv, hnull, post_executed hv hnull, ?_⟩
    rw [post_executed hv hnull]
    obtain ⟨route, body⟩ := r
    cases route with
    | login => exact absurd rfl hroute
    | _ => simp [execute, refused, ascii]
  · have hall : ∀ v, DocumentText doubles r.body v → v = .nul := by
      intro v hv
      by_contra hnull
      exact h ⟨v, hv, hnull⟩
    exact Or.inr ⟨hall, post_refused hroute hall⟩

/-- A document with the port alone. -/
def portOnly : Json Int := .object [(ascii "SipLocalPort", .int 5060)]

theorem portOnly_document : DocumentText wholeDoubles (portOnly.dump wholeDoubles) portOnly := by
  have hordered : portOnly.Ordered := by simp [portOnly, Json.Ordered, KeysOrdered, OrderedMembers]
  have hreread : portOnly.reread wholeDoubles = portOnly := by
    simp only [portOnly, Json.reread, rereadMembers, rereadInteger]
    rw [if_pos (by decide), Int32.ofInt_toInt]
  rw [← parse_iff]
  exact (parse_dump_iff wholeDoubles_prints hordered _).mpr ⟨by decide, hreread.symm⟩

theorem post_portOnly :
    (post wholeDoubles ⟨.setGB28181config, portOnly.dump wholeDoubles⟩ (start none)).notices ≠ [] := by
  rcases post_decides wholeDoubles ⟨.setGB28181config, portOnly.dump wholeDoubles⟩ (start none)
    (by decide) with ⟨_, _, _, _, h, _⟩ | ⟨h, _⟩
  · exact h
  · exact absurd (h portOnly portOnly_document) (by simp [portOnly])

theorem run_cons (requests : List Request) :
    run doubles (r :: requests) s = run doubles requests (post doubles r s).state := rfl

theorem run_append (requests requests' : List Request) :
    run doubles (requests ++ requests') s = run doubles requests' (run doubles requests s) :=
  List.foldl_append

theorem start_conf (file : Option Text) : (start file).conf = (TdConf.new.readConfig file).1 := by
  rw [start]

theorem start_ok (file : Option Text) : IniOk settingsFree (start file).conf.mIni := by
  rw [start_conf]
  exact readConfig_ok TdConf.new file

end GMProxy.TdServer
