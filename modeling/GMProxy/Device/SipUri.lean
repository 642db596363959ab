import GMProxy.Device.Registration

/-!
# The URIs of the device

The From and Contact URIs that `modifyRegister` hands to the SIP library. `local_ip` is a string of 128
characters into which the library writes a C string, and all 128 of them go into the URIs.
-/

namespace GMProxy.TdDevice

open Conf Inifile

/-- `local_ip` after the constructor. -/
def newLocalIp : Text := List.replicate 128 '0'

/-- `eXosip_guess_localip` with an address that has room. -/
def guessLocalip (localIp ip : Text) : Text := ip ++ '\x00' :: localIp.drop (ip.length + 1)

/-- What a function reads that is given `s.c_str()`. -/
def cString (s : String) : Text := s.toList.takeWhile (· ≠ '\x00')

/-- `localIp` holds the address as a C string. -/
structure HoldsAddress (localIp : String) (ip : Text) : Prop where
  terminated : ip ++ ['\x00'] <+: localIp.toList
  address : '\x00' ∉ ip

/-- `sip:<id>@<ip>:<port>`. -/
def identityUri (ctx : GB28121Ctx) (ip : Text) : Text :=
  ("sip:" ++ ctx.mDevideId ++ "@").toList ++ ip ++ ':' :: (toString ctx.mBasePort).toList

/-- The From and Contact URIs that are handed over are exactly `uri`. -/
def UrisExact (calls : List SipCall) (uri : Text) : Prop :=
  ∀ fromUri proxy contact expires,
    SipCall.buildInitialRegister fromUri proxy contact expires ∈ calls →
      cString fromUri = uri ∧ cString contact = uri

variable {localIp : String} {ip : Text}

theorem guessLocalip_holds (h : '\x00' ∉ ip) (buffer : Text) :
    HoldsAddress (String.ofList (guessLocalip buffer ip)) ip where
  terminated := by
    refine ⟨buffer.drop (ip.length + 1), ?_⟩
    rw [String.toList_ofList, guessLocalip, List.append_assoc, List.singleton_append]
  address := h

/-- The URI is cut behind the address. -/
theorem cString_fromSip (h : HoldsAddress localIp ip) (r : Registration) :
    cString (r.setGB28181Param localIp).fromSip =
      (("sip:" ++ r.mGB28121Ctx.mDevideId ++ "@").toList ++ ip).takeWhile (· ≠ '\x00') := by
  obtain ⟨behind, hbehind⟩ := h.terminated
  have huri : (r.setGB28181Param localIp).fromSip.toList =
      (("sip:" ++ r.mGB28121Ctx.mDevideId ++ "@").toList ++ ip) ++ '\x00' ::
        (behind ++ (":" ++ toString r.mGB28121Ctx.mBasePort).toList) := by
    simp only [Registration.setGB28181Param, String.toList_append, ← hbehind, List.append_assoc,
      List.cons_append, List.nil_append]
  rw [cString, huri, Lines.takeWhile_ne_append]

theorem cString_fromSip_ne (h : HoldsAddress localIp ip) (r : Registration) :
    cString (r.setGB28181Param localIp).fromSip ≠ identityUri r.mGB28121Ctx ip := by
  intro heq
  rw [cString_fromSip h] at heq
  have hcut := (List.takeWhile_sublist (fun c : Char => decide (c ≠ '\x00'))
    (l := ("sip:" ++ r.mGB28121Ctx.mDevideId ++ "@").toList ++ ip)).length_le
  rw [heq, identityUri, List.length_append, List.length_cons] at hcut
  omega

theorem build_mem (r : Registration) (localIp : String) (ctx : GB28121Ctx) (rid : Int)
    (built : Bool) :
    SipCall.buildInitialRegister (({ r with mGB28121Ctx := ctx } : Registration).setGB28181Param
        localIp).fromSip
      (({ r with mGB28121Ctx := ctx } : Registration).setGB28181Param localIp).toSip
      (({ r with mGB28121Ctx := ctx } : Registration).setGB28181Param localIp).sipContact 120 ∈
        (r.modifyRegister localIp ctx rid built).2 := by
  rw [Registration.modifyRegister]
  simp

/-- The URIs are never those of the device: the port is behind the NUL of the address. -/
theorem modifyRegister_uris_never (h : HoldsAddress localIp ip) (r : Registration)
    (ctx : GB28121Ctx) (rid : Int) (built : Bool) :
    ¬ UrisExact (r.modifyRegister localIp ctx rid built).2 (identityUri ctx ip) := by
  intro hexact
  have huris := hexact _ _ _ _ (build_mem r localIp ctx rid built)
  exact cString_fromSip_ne h { r with mGB28121Ctx := ctx } huris.1

private def guessed : String := String.ofList (guessLocalip newLocalIp "192.168.1.2".toList)

private theorem guessed_holds : HoldsAddress guessed "192.168.1.2".toList :=
  guessLocalip_holds (by decide) newLocalIp

/-- A new device with the address 192.168.1.2. -/
theorem guessed_uris_wrong : HoldsAddress guessed "192.168.1.2".toList ∧
    ¬ UrisExact ((Registration.init {}).modifyRegister guessed {} 1 true).2
      (identityUri {} "192.168.1.2".toList) :=
  ⟨guessed_holds, modifyRegister_uris_never guessed_holds (Registration.init {}) {} 1 true⟩

/-- It registers as `sip:31011500991320000046@192.168.1.2`. -/
theorem guessed_port_lost :
    ¬ ∀ (localIp : String) (ip : Text), HoldsAddress localIp ip →
      ∀ (r : Registration) (ctx : GB28121Ctx) (rid : Int) (built : Bool),
        UrisExact (r.modifyRegister localIp ctx rid built).2 (identityUri ctx ip) := by
  intro h
  have hexact := h guessed _ guessed_holds (Registration.init {}) {} 1 true
  have huris := hexact _ _ _ _ (build_mem (Registration.init {}) guessed {} 1 true)
  exact cString_fromSip_ne guessed_holds (Registration.init {}) huris.1

end GMProxy.TdDevice
