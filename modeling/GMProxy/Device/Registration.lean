import GMProxy.Device.Messages
import GMProxy.Library.Machine

/-!
# The registration of the device

`modifyRegister`, the registration events of `process_request` and the loop of `heartbeat_task`, with
the calls of the SIP library that each makes. A run is checked against the history of its events.
-/

namespace GMProxy.TdDevice

open Conf Machine

/-- The members of `TdDevice` that a registration uses, and the counter `sn`. -/
structure Registration where
  mGB28121Ctx : GB28121Ctx
  fromSip : String
  toSip : String
  sipContact : String
  isRegister : Bool
  registerId : Int
  sn : Int

/-- The calls of the SIP library. -/
inductive SipCall where
  | registerRemove (rid : Int)
  | clearAuthenticationInfo
  | buildInitialRegister (fromUri proxy contact : String) (expires : Int)
  | sendRegister (rid : Int)
  | addAuthenticationInfo (username userid passwd ha1 realm : String)
  | buildRequest (method toUri fromUri : String)
  | sendRequest (body : String)
deriving DecidableEq

/-- What a response to a REGISTER holds: its status code and the realm of its challenge. -/
structure RegisterResponse where
  statusCode : Nat
  realm : String
deriving DecidableEq

/-- What happens to the registration. `modifyRegister` comes with the configuration that it reads, and
the id and whether a message is returned for the new REGISTER; a registration event comes with the id
it belongs to; a turn of the heartbeat comes with whether its request can be built. -/
inductive RegisterEvent where
  | modifyRegister (ctx : GB28121Ctx) (rid : Int) (built : Bool)
  | success (rid : Int)
  | failure (rid : Int) (response : Option RegisterResponse)
  | heartbeat (built : Bool)

namespace Registration

variable (localIp : String) (device : Device) (r : Registration)

def setGB28181Param : Registration :=
  let ctx := r.mGB28121Ctx
  { r with
    fromSip := "sip:" ++ ctx.mDevideId ++ "@" ++ localIp ++ ":" ++ toString ctx.mBasePort
    toSip := "sip:" ++ ctx.mServerSipId ++ "@" ++ ctx.mSipServerIp ++ ":" ++
      toString ctx.mSipServerPort
    sipContact := "sip:" ++ ctx.mDevideId ++ "@" ++ localIp ++ ":" ++ toString ctx.mBasePort }

def modifyRegister (ctx : GB28121Ctx) (rid : Int) (built : Bool) : Registration × List SipCall :=
  let removed := if 0 < r.registerId then [SipCall.registerRemove r.registerId] else []
  let r := setGB28181Param localIp { r with mGB28121Ctx := ctx }
  let build := [SipCall.clearAuthenticationInfo,
    .buildInitialRegister r.fromSip r.toSip r.sipContact 120]
  ({ r with isRegister := false, registerId := rid },
    removed ++ build ++ if built then [.sendRegister rid] else [])

/-- EXOSIP_REGISTRATION_SUCCESS; the id of the event is not read. -/
def registrationSuccess : Registration × List SipCall :=
  (if r.isRegister ≠ true then { r with isRegister := true } else r, [])

/-- EXOSIP_REGISTRATION_FAILURE; the id of the event is not read. -/
def registrationFailure (response : Option RegisterResponse) : Registration × List SipCall :=
  match response with
  | none => (r, [])
  | some response =>
      if response.statusCode = 401 then
        (r, [.addAuthenticationInfo r.mGB28121Ctx.mDevideId r.mGB28121Ctx.mSipUserName
          r.mGB28121Ctx.mSipPassWd "MD5" response.realm])
      else (r, [])

/-- One turn of `heartbeat_task`. -/
def heartbeatTask (built : Bool) : Registration × List SipCall :=
  if r.isRegister then
    let sn := getSn r.sn
    let body := keepaliveNotify { device with mGB28121Ctx := r.mGB28121Ctx } sn
    ({ r with sn := sn },
      [.buildRequest "MESSAGE" r.toSip r.fromSip] ++ if built then [.sendRequest body] else [])
  else (r, [])

def handle : RegisterEvent → Registration × List SipCall
  | .modifyRegister ctx rid built => r.modifyRegister localIp ctx rid built
  | .success _ => r.registrationSuccess
  | .failure _ response => r.registrationFailure response
  | .heartbeat built => r.heartbeatTask device built

def step (e : RegisterEvent) : Option Registration := some (r.handle localIp device e).1

/-- The device before its first `modifyRegister`. -/
def init (ctx : GB28121Ctx) : Registration := ⟨ctx, "", "", "", false, -1, 0⟩

end Registration

/-- The events so far with the calls they led to, the newest in front. -/
abbrev RegisterHistory := List (RegisterEvent × List SipCall)

/-- The id of the registration that the last `modifyRegister` made. -/
def currentId : RegisterHistory → Int
  | [] => -1
  | (.modifyRegister _ rid _, _) :: _ => rid
  | _ :: h => currentId h

/-- The outcome that an event reports for a registration; a challenge is none. -/
def outcome (rid : Int) : RegisterEvent → Option Bool
  | .success id => if id = rid then some true else none
  | .failure id response =>
      if id = rid ∧ response.map RegisterResponse.statusCode ≠ some 401 then some false else none
  | _ => none

/-- The last outcome of a registration since the last `modifyRegister`. -/
def lastOutcome (rid : Int) : RegisterHistory → Option Bool
  | [] => none
  | (.modifyRegister _ _ _, _) :: _ => none
  | (e, _) :: h => (outcome rid e).or (lastOutcome rid h)

/-- The current registration is in force. -/
def Registered (h : RegisterHistory) : Prop := lastOutcome (currentId h) h = some true

/-- Every Keepalive was sent while the current registration was in force. -/
def KeepalivesOk : RegisterHistory → Prop
  | [] => True
  | (_, calls) :: h => ((∃ body, SipCall.sendRequest body ∈ calls) → Registered h) ∧ KeepalivesOk h

def recordEvent (localIp : String) (device : Device) (r : Registration) (e : RegisterEvent)
    (h : RegisterHistory) : RegisterHistory :=
  (e, (r.handle localIp device e).2) :: h

/-- The flag and the Keepalives follow the history. -/
def FollowsEvents (x : Registration × RegisterHistory) : Prop :=
  (x.1.isRegister = true ↔ Registered x.2) ∧ KeepalivesOk x.2

/-- A success belongs to the current registration or changes nothing, and a failure that is no
challenge does not belong to a registration in force. -/
def Tracked (r : Registration) : RegisterEvent → Prop
  | .success rid => rid = r.registerId ∨ r.isRegister = true
  | .failure rid response =>
      ¬ (rid = r.registerId ∧ response.map RegisterResponse.statusCode ≠ some 401 ∧
        r.isRegister = true)
  | _ => True

section Step

variable {localIp : String} {device : Device} {r : Registration} {h : RegisterHistory}

theorem registrationSuccess_eq : r.registrationSuccess = ({ r with isRegister := true }, []) := by
  unfold Registration.registrationSuccess
  by_cases hreg : r.isRegister = true
  · simp [← hreg]
  · simp [hreg]

theorem registrationFailure_kept (response : Option RegisterResponse) :
    (r.registrationFailure response).1 = r := by
  unfold Registration.registrationFailure
  cases response with
  | none => rfl
  | some response =>
      simp only
      split <;> rfl

theorem heartbeatTask_kept (built : Bool) : (r.heartbeatTask device built).1 =
    { r with sn := if r.isRegister then getSn r.sn else r.sn } := by
  unfold Registration.heartbeatTask
  by_cases hreg : r.isRegister = true
  · simp [hreg]
  · rw [if_neg hreg, if_neg hreg]

theorem handle_registerId (e : RegisterEvent) (hid : r.registerId = currentId h) :
    (r.handle localIp device e).1.registerId = currentId (recordEvent localIp device r e h) := by
  cases e with
  | modifyRegister ctx rid built => rfl
  | success rid => simpa [Registration.handle, registrationSuccess_eq, recordEvent, currentId] using hid
  | failure rid response =>
      simpa [Registration.handle, registrationFailure_kept, recordEvent, currentId] using hid
  | heartbeat built =>
      simpa [Registration.handle, heartbeatTask_kept, recordEvent, currentId] using hid

/-- Only a turn of the heartbeat sends a request, and only if the flag is set. -/
theorem handle_sendRequest {e : RegisterEvent} {body : String}
    (hsent : SipCall.sendRequest body ∈ (r.handle localIp device e).2) : r.isRegister = true := by
  cases e with
  | modifyRegister ctx rid built =>
      simp only [Registration.handle, Registration.modifyRegister] at hsent
      cases built <;> by_cases hpos : 0 < r.registerId <;> simp [hpos] at hsent
  | success rid => simp [Registration.handle, Registration.registrationSuccess] at hsent
  | failure rid response =>
      cases response with
      | none => simp [Registration.handle, Registration.registrationFailure] at hsent
      | some response =>
          by_cases hchallenge : response.statusCode = 401
          · simp [Registration.handle, Registration.registrationFailure, hchallenge] at hsent
          · simp [Registration.handle, Registration.registrationFailure, hchallenge] at hsent
  | heartbeat built =>
      by_contra hunset
      simp [Registration.handle, Registration.heartbeatTask, hunset] at hsent

theorem registered_success {rid : Int} {calls : List SipCall} :
    Registered ((.success rid, calls) :: h) ↔ rid = currentId h ∨ Registered h := by
  simp only [Registered, currentId, lastOutcome, outcome]
  by_cases hid : rid = currentId h
  · simp [hid]
  · simp [hid]

theorem registered_failure {rid : Int} {response : Option RegisterResponse} {calls : List SipCall} :
    Registered ((.failure rid response, calls) :: h) ↔
      ¬ (rid = currentId h ∧ response.map RegisterResponse.statusCode ≠ some 401) ∧
        Registered h := by
  by_cases hfails : rid = currentId h ∧ response.map RegisterResponse.statusCode ≠ some 401
  · have houtcome : outcome (currentId h) (.failure rid response) = some false := if_pos hfails
    simp only [Registered, currentId, lastOutcome, houtcome, Option.some_or]
    simp [hfails]
  · have houtcome : outcome (currentId h) (.failure rid response) = none := if_neg hfails
    simp only [Registered, currentId, lastOutcome, houtcome, Option.none_or]
    exact (and_iff_right hfails).symm

/-- The flag follows the history over one event exactly if the event is tracked. -/
theorem isRegister_handle_iff (e : RegisterEvent) (hid : r.registerId = currentId h)
    (hflag : r.isRegister = true ↔ Registered h) :
    ((r.handle localIp device e).1.isRegister = true ↔
      Registered (recordEvent localIp device r e h)) ↔ Tracked r e := by
  cases e with
  | modifyRegister ctx rid built =>
      simp [Registration.handle, Registration.modifyRegister, recordEvent, Registered, lastOutcome,
        Tracked]
  | success rid =>
      rw [recordEvent, registered_success, Registration.handle, registrationSuccess_eq, ← hflag,
        Tracked, hid]
      simp
  | failure rid response =>
      rw [recordEvent, registered_failure, Registration.handle, registrationFailure_kept, ← hflag,
        Tracked, hid]
      tauto
  | heartbeat built =>
      have hhistory : Registered (recordEvent localIp device r (.heartbeat built) h) ↔
          Registered h := by
        simp [recordEvent, Registered, currentId, lastOutcome, outcome]
      rw [hhistory, Registration.handle, heartbeatTask_kept]
      exact iff_of_true hflag trivial

theorem keepalivesOk_record (e : RegisterEvent) (hflag : r.isRegister = true ↔ Registered h)
    (hsent : KeepalivesOk h) : KeepalivesOk (recordEvent localIp device r e h) := by
  constructor
  · intro hbody
    obtain ⟨body, hmem⟩ := hbody
    exact hflag.mp (handle_sendRequest hmem)
  · exact hsent

end Step

/-- The flag follows the events of the registrations, and no Keepalive is sent on a registration that
is not in force, exactly in the runs whose events are all tracked. -/
theorem registration_follows_iff (localIp : String) (device : Device) (ctx : GB28121Ctx)
    (events : List RegisterEvent) :
    StatesHold (recorded (Registration.step localIp device) (recordEvent localIp device))
        FollowsEvents (.init ctx, []) events ↔
      StepsMeet (Registration.step localIp device) Tracked (.init ctx) events := by
  have hrecorded : StepsMeet (recorded (Registration.step localIp device)
        (recordEvent localIp device)) (fun x e => Tracked x.1 e) (.init ctx, []) events ↔
      StepsMeet (Registration.step localIp device) Tracked (.init ctx) events :=
    ⟨StepsMeet.of_recorded, StepsMeet.recorded⟩
  rw [← hrecorded]
  apply statesHold_iff_steps_of_invariant (I := fun x => x.1.registerId = currentId x.2)
  · intro x e x' hid hstep
    obtain ⟨hnext, hhistory⟩ := recorded_eq_some.mp hstep
    rw [← Option.some.inj hnext, ← hhistory]
    exact handle_registerId e hid
  · intro x e x' hid hfollows hstep
    obtain ⟨hnext, hhistory⟩ := recorded_eq_some.mp hstep
    rw [FollowsEvents, ← Option.some.inj hnext, ← hhistory,
      and_iff_left (keepalivesOk_record e hfollows.1 hfollows.2)]
    exact isRegister_handle_iff e hid hfollows.1
  · rfl
  · constructor
    · simp [Registration.init, Registered, lastOutcome]
    · trivial

/-- A refresh fails after the registration had succeeded, and the heartbeat goes on. -/
theorem failedRefresh_not_followed :
    ¬ ∀ events, StatesHold
      (recorded (Registration.step "10.0.0.2" ⟨{}, "TDWL", "2024-5-17T08:00:00", 0, true⟩)
        (recordEvent "10.0.0.2" ⟨{}, "TDWL", "2024-5-17T08:00:00", 0, true⟩))
      FollowsEvents (.init {}, []) events := by
  intro h
  have hfollows := h [.modifyRegister {} 1 true, .success 1, .failure 1 (some ⟨403, ""⟩)]
  have hflag := (hfollows.2 _ rfl).2 _ rfl
  have hlast := (hflag.2 _ rfl).1
  exact (registered_failure.mp (hlast.mp rfl)).1 ⟨rfl, by decide⟩

end GMProxy.TdDevice
