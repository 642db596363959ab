import GMProxy.Library.CMemory
import GMProxy.Device.Messages

/-!
# The INVITE

The branch of `process_request` for EXOSIP_CALL_INVITE, and the `ssrc` that it cuts out of the body.
The count behind the first `y=` is one too large, and no branch looks whether `find` has found
anything.
-/

namespace GMProxy.TdDevice

open Conf Inifile CMemory

/-- `std::string::npos`. -/
def npos : Nat := 2 ^ 64 - 1

/-- `std::string::find`. -/
def findIndex (tag text : Text) : Nat := (Lines.find tag text).getD npos

/-- `std::string::substr`; none where it throws `out_of_range`. -/
def substr (text : Text) (pos count : Nat) : Option Text :=
  if text.length < pos then none else some ((text.drop pos).take count)

/-- A text that is a `std::string`. -/
structure SdpBody where
  text : Text
  fits : text.length < npos

def yTag : Text := ['y', '=']
def crlf : Text := ['\r', '\n']

/-- What the SIP library gives for an INVITE: whether it has an SDP, the address of its video
connection, the port and the protocol of its video media, its body, and the status with which an
answer is built. -/
structure Invite where
  tid : Int
  remoteSdp : Bool
  videoConnection : Option String
  videoMedia : Option (String × String)
  sdpBody : Option SdpBody
  answerStatus : Int

/-- The branch comes to the body: nothing that it looks up in front of it is missing. -/
def Invite.ComesToBody (invite : Invite) : Prop :=
  invite.remoteSdp = true ∧ invite.videoConnection.isSome ∧ invite.videoMedia.isSome

instance (invite : Invite) : Decidable invite.ComesToBody :=
  inferInstanceAs (Decidable (_ ∧ _ ∧ _))

/-- The members of `TdDevice` that an INVITE sets. -/
structure CallMembers where
  rtpIp : String
  rtpPort : Int32
  rtpProtocol : String
  ssrc : Text

/-- The value behind the first `y=`. -/
def extractSsrc (body : Text) : Option Text := do
  let ySdpFirstIndex := findIndex yTag body
  let ySdp ← substr body ySdpFirstIndex npos
  let ySdpLastIndex := findIndex crlf ySdp
  -- the count is that of the value and the `\r` behind it
  substr ySdp 2 (toSize (ySdpLastIndex - 1))

/-- EXOSIP_CALL_INVITE; none where an `out_of_range` leaves `process_request`. -/
def processInvite (members : CallMembers) (invite : Invite) : Option (CallMembers × List Effect) :=
  if invite.remoteSdp then
    match invite.videoConnection with
    | none => some (members, [])
    | some cAddr =>
        let members := { members with rtpIp := cAddr }
        match invite.videoMedia with
        | none => some (members, [])
        | some (mPort, mProto) =>
            let members :=
              { members with rtpPort := atoi mPort.toList, rtpProtocol := mProto }
            match invite.sdpBody with
            | none => some (members, [])
            | some body => do
                let ssrc ← extractSsrc body.text
                let members := { members with ssrc := ssrc }
                if invite.answerStatus ≠ 0 then some (members, [])
                else some (members, [sendResponseOk invite.tid])
  else some (members, [])

/-- The body has a line `y=<v>`, ended by CRLF or by the end of the body. -/
def HasSsrcLine (body v : Text) : Prop :=
  ∃ front behind, body = front ++ yTag ++ v ++ behind ∧ (front = [] ∨ crlf <:+ front) ∧
    (behind = [] ∨ crlf <+: behind) ∧ '\r' ∉ v ∧ '\n' ∉ v

/-- The branch is not left by an exception, and the value of the line of the ssrc, if the body has one,
is stored. -/
def StoresSsrc (result : Option (CallMembers × List Effect)) (body : Text) : Prop :=
  ∃ members effects, result = some (members, effects) ∧
    ∀ v, HasSsrcLine body v → members.ssrc = v

variable {body rest v : Text} {first : Nat}

theorem substr_some {text : Text} {pos count : Nat} (h : pos ≤ text.length) :
    substr text pos count = some ((text.drop pos).take count) := if_neg (Nat.not_lt.mpr h)

theorem extractSsrc_absent (b : SdpBody) (h : Lines.find yTag b.text = none) :
    extractSsrc b.text = none := by
  have hthrows : substr b.text (findIndex yTag b.text) npos = none := by
    rw [findIndex, h, Option.getD_none]
    exact if_pos b.fits
  rw [extractSsrc, hthrows]
  rfl

/-- The text from the first `y=` on. -/
theorem split_first (h : Lines.find yTag body = some first) :
    ∃ rest, body.drop first = yTag ++ rest ∧ first ≤ body.length := by
  obtain ⟨⟨rest, hrest⟩, -⟩ := Lines.find_some h
  refine ⟨rest, hrest.symm, ?_⟩
  have hlen := congrArg List.length hrest
  rw [List.length_append, List.length_drop] at hlen
  have htag : yTag.length = 2 := rfl
  omega

theorem extractSsrc_found (b : SdpBody) (h : Lines.find yTag b.text = some first)
    (hrest : b.text.drop first = yTag ++ rest) (hle : first ≤ b.text.length) :
    extractSsrc b.text = some (rest.take (toSize (findIndex crlf (yTag ++ rest) - 1))) := by
  have hfits := b.fits
  have hall : (b.text.drop first).take npos = yTag ++ rest := by
    rw [hrest, List.take_of_length_le]
    rw [← hrest, List.length_drop]
    omega
  have hfirst : findIndex yTag b.text = first := by rw [findIndex, h, Option.getD_some]
  have htag : 2 ≤ (yTag ++ rest).length := by
    rw [List.length_append]
    exact Nat.le_add_right 2 _
  rw [extractSsrc, hfirst, substr_some hle, hall]
  exact substr_some htag

/-- Without CRLF the rest of the body is taken. -/
theorem extractSsrc_last (b : SdpBody) (h : Lines.find yTag b.text = some first)
    (hrest : b.text.drop first = yTag ++ rest) (hle : first ≤ b.text.length)
    (hend : ¬ crlf <:+: yTag ++ rest) : extractSsrc b.text = some rest := by
  have hfits := b.fits
  have hlen := congrArg List.length hrest
  rw [List.length_drop, List.length_append] at hlen
  have hcount : toSize ((findIndex crlf (yTag ++ rest) : Int) - 1) = 2 ^ 64 - 2 := by
    rw [findIndex, Lines.find_none_iff.mpr hend]
    rfl
  rw [extractSsrc_found b h hrest hle, hcount, List.take_of_length_le]
  simp only [npos] at hfits
  omega

/-- In front of CRLF the `\r` is taken too. -/
theorem extractSsrc_ended (b : SdpBody) (h : Lines.find yTag b.text = some first)
    (hrest : b.text.drop first = yTag ++ rest) (hle : first ≤ b.text.length)
    (hend : crlf <:+: yTag ++ rest) : ∃ ssrc, extractSsrc b.text = some ssrc ∧ '\r' ∈ ssrc := by
  have hfits := b.fits
  obtain ⟨i, hi⟩ := Option.ne_none_iff_exists'.mp (mt Lines.find_none_iff.mp (not_not.mpr hend))
  obtain ⟨⟨behind, hbehind⟩, -⟩ := Lines.find_some hi
  have htwo : 2 ≤ i := by
    by_contra hlow
    have hcase : i = 0 ∨ i = 1 := by omega
    rcases hcase with rfl | rfl
    · cases hbehind
    · cases hbehind
  obtain ⟨k, rfl⟩ : ∃ k, i = k + 2 := ⟨i - 2, by omega⟩
  have hdrop : rest.drop k = crlf ++ behind := hbehind.symm
  have hlen := congrArg List.length hdrop
  rw [List.length_drop, List.length_append] at hlen
  have hbody := congrArg List.length hrest
  rw [List.length_drop, List.length_append] at hbody
  have hcrlf : crlf.length = 2 := rfl
  have hcount : toSize ((findIndex crlf (yTag ++ rest) : Int) - 1) = k + 1 := by
    rw [findIndex, hi, Option.getD_some, toSize]
    simp only [npos] at hfits
    omega
  refine ⟨_, extractSsrc_found b h hrest hle, ?_⟩
  have hread : rest[k]? = some '\r' := by
    rw [← List.head?_drop, hdrop]
    rfl
  rw [hcount]
  exact List.mem_of_getElem? (List.getElem?_take_of_lt (Nat.lt_succ_self k) ▸ hread)

/-- If there is no CRLF behind the first `y=`, the line begins there and ends the body. -/
theorem HasSsrcLine.eq_rest (h : HasSsrcLine body v) (hfirst : Lines.find yTag body = some first)
    (hrest : body.drop first = yTag ++ rest) (hend : ¬ crlf <:+: yTag ++ rest) : v = rest := by
  obtain ⟨front, behind, rfl, hfront, hbehind, -, -⟩ := h
  have hbody : front ++ yTag ++ v ++ behind = front ++ (yTag ++ (v ++ behind)) := by
    simp only [List.append_assoc]
  rw [hbody] at hfirst hrest
  have hfirstLe : first ≤ front.length := by
    by_contra hlarge
    apply (Lines.find_some hfirst).2 front.length (by omega)
    rw [List.drop_left' rfl]
    exact List.prefix_append _ _
  have hstart : front.length ≤ first := by
    rcases hfront with rfl | ⟨before, rfl⟩
    · exact Nat.zero_le _
    · by_contra hlow
      rw [List.length_append] at hlow
      have hcrlf : crlf.length = 2 := rfl
      have hcase : first ≤ before.length ∨ first = before.length + 1 := by omega
      rcases hcase with hle | rfl
      · -- the CRLF in front of the line stands behind the first `y=`
        apply hend
        rw [← hrest, List.append_assoc, List.drop_append_of_le_length hle]
        exact ⟨before.drop first, yTag ++ (v ++ behind), by simp only [List.append_assoc]⟩
      · have hbefore : before.drop (before.length + 1) = [] :=
          List.drop_eq_nil_of_le (Nat.le_succ _)
        rw [List.append_assoc, List.drop_append] at hrest
        simp [crlf, yTag, hbefore] at hrest
  have heq : first = front.length := Nat.le_antisymm hfirstLe hstart
  rw [heq, List.drop_left' rfl] at hrest
  have htail : v ++ behind = rest := List.append_cancel_left hrest
  rcases hbehind with rfl | ⟨text, rfl⟩
  · rwa [List.append_nil] at htail
  · apply absurd _ hend
    rw [← htail]
    exact ⟨yTag ++ v, text, by simp only [List.append_assoc]⟩

/-- In front of the body the branch is left with the stored ssrc as it was. -/
theorem processInvite_early (members : CallMembers) {invite : Invite} (h : ¬ invite.ComesToBody) :
    ∃ members', processInvite members invite = some (members', []) ∧ members'.ssrc = members.ssrc := by
  obtain ⟨tid, remoteSdp, videoConnection, videoMedia, sdpBody, answerStatus⟩ := invite
  cases remoteSdp with
  | false => exact ⟨members, rfl, rfl⟩
  | true =>
      cases videoConnection with
      | none => exact ⟨members, rfl, rfl⟩
      | some cAddr =>
          cases videoMedia with
          | none => exact ⟨_, rfl, rfl⟩
          | some media => exact absurd ⟨rfl, rfl, rfl⟩ h

/-- With a body everything hangs on what is cut out of it. -/
theorem processInvite_body (members : CallMembers) {invite : Invite} {b : SdpBody}
    (hbody : invite.sdpBody = some b) (h : invite.ComesToBody) :
    StoresSsrc (processInvite members invite) b.text ↔
      ∃ ssrc, extractSsrc b.text = some ssrc ∧ ∀ v, HasSsrcLine b.text v → ssrc = v := by
  obtain ⟨tid, remoteSdp, videoConnection, videoMedia, sdpBody, answerStatus⟩ := invite
  obtain ⟨hsdp, hconnection, hmedia⟩ := h
  obtain ⟨cAddr, rfl⟩ := Option.isSome_iff_exists.mp hconnection
  obtain ⟨⟨mPort, mProto⟩, rfl⟩ := Option.isSome_iff_exists.mp hmedia
  simp only [StoresSsrc, processInvite, show remoteSdp = true from hsdp,
    show sdpBody = some b from hbody, if_true]
  cases extractSsrc b.text with
  | none => simp
  | some ssrc =>
      simp only [Option.bind_eq_bind, Option.bind_some]
      split
      · simp
      · simp

/-- The value that is cut out is that of the line exactly when the body contains `y=` and, if it has a
line of the ssrc, no CRLF behind the first `y=`. -/
theorem extractSsrc_iff (b : SdpBody) :
    (∃ ssrc, extractSsrc b.text = some ssrc ∧ ∀ v, HasSsrcLine b.text v → ssrc = v) ↔
      ∃ first, Lines.find yTag b.text = some first ∧
        ((∃ v, HasSsrcLine b.text v) → ¬ crlf <:+: b.text.drop first) := by
  cases hfind : Lines.find yTag b.text with
  | none => simp [extractSsrc_absent b hfind]
  | some first =>
      obtain ⟨rest, hrest, hle⟩ := split_first hfind
      by_cases hend : crlf <:+: yTag ++ rest
      · obtain ⟨ssrc, hssrc, hreturn⟩ := extractSsrc_ended b hfind hrest hle hend
        have hwrong : ∀ v, HasSsrcLine b.text v → ssrc ≠ v := by
          rintro v ⟨-, -, -, -, -, hclean, -⟩ rfl
          exact hclean hreturn
        simp only [hssrc, Option.some.injEq, exists_eq_left', hrest]
        constructor
        · intro hall hline
          obtain ⟨v, hv⟩ := hline
          exact absurd (hall v hv) (hwrong v hv)
        · intro hnone v hv
          exact absurd hend (hnone ⟨v, hv⟩)
      · have hssrc := extractSsrc_last b hfind hrest hle hend
        simp only [hssrc, Option.some.injEq, exists_eq_left', hrest]
        exact iff_of_true (fun v hv => (hv.eq_rest hfind hrest hend).symm) fun _ => hend

/-- An INVITE is handled as it should be exactly in these cases: it is left in front of its body, and
the body has no line of the ssrc or one with the ssrc that is stored already; or the branch comes to
the body, the body contains `y=`, and if it has a line of the ssrc, no CRLF stands behind the first
`y=`. -/
theorem processInvite_ssrc_iff (members : CallMembers) (invite : Invite) (b : SdpBody)
    (hbody : invite.sdpBody = some b) :
    StoresSsrc (processInvite members invite) b.text ↔
      if invite.ComesToBody then
        ∃ first, Lines.find yTag b.text = some first ∧
          ((∃ v, HasSsrcLine b.text v) → ¬ crlf <:+: b.text.drop first)
      else ∀ v, HasSsrcLine b.text v → members.ssrc = v := by
  by_cases hcomes : invite.ComesToBody
  · rw [if_pos hcomes, processInvite_body members hbody hcomes, extractSsrc_iff]
  · obtain ⟨members', hresult, hssrc⟩ := processInvite_early members hcomes
    rw [if_neg hcomes, StoresSsrc, hresult]
    simp [← hssrc]

private def invited : Text := "v=0\r\ny=0100000001\r\n".toList

/-- A body without CRLF at its end. -/
theorem processInvite_lastLine :
    StoresSsrc (processInvite ⟨"", 0, "", []⟩ ⟨1, true, some "10.0.0.1", some ("6000", "RTP/AVP"),
      some ⟨"v=0\r\ny=01".toList, by decide⟩, 0⟩) "v=0\r\ny=01".toList :=
  (processInvite_ssrc_iff _ _ ⟨"v=0\r\ny=01".toList, by decide⟩ rfl).mpr
    ((if_pos (by decide)).mpr ⟨5, by decide, fun _ => by decide⟩)

/-- The line of the ssrc is ended by CRLF, and its `\r` is stored. -/
theorem invited_stores_return :
    ¬ StoresSsrc (processInvite ⟨"", 0, "", []⟩ ⟨1, true, some "10.0.0.1", some ("6000", "RTP/AVP"),
      some ⟨invited, by decide⟩, 0⟩) invited := by
  rintro ⟨members, effects, hresult, hstored⟩
  have hline : HasSsrcLine invited "0100000001".toList :=
    ⟨"v=0\r\n".toList, crlf, by decide, Or.inr (by decide), Or.inr List.prefix_rfl, by decide,
      by decide⟩
  have hssrc : extractSsrc invited = some "0100000001\r".toList := by decide
  have hmembers := hstored _ hline
  simp only [processInvite, if_true, hssrc, Option.bind_eq_bind, Option.bind_some, ne_eq,
    not_true_eq_false, if_false, Option.some.injEq, Prod.mk.injEq] at hresult
  obtain ⟨rfl, -⟩ := hresult
  exact absurd hmembers (by decide)

end GMProxy.TdDevice
