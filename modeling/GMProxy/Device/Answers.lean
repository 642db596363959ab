import GMProxy.Device.Messages
import GMProxy.Device.Steps
import GMProxy.Library.CharData
import GMProxy.Library.Machine

/-!
# What a MESSAGE is answered with

The SN of the responses that the device sends as requests of its own, and the answers on the
transaction of the MESSAGE.
-/

namespace GMProxy.TdDevice

open CharData Conf Decimal Lines Machine

variable {device : Device} {call : SessionCall} {tid counter : Int} {root : XmlNode} {cmd s : String}

/-- The document is a query with a command and an SN. -/
structure XmlNode.IsQuery (root : XmlNode) (cmd sn : String) : Prop where
  name : root.name = "Query"
  cmd : root.child "CmdType" = some cmd
  sn : root.child "SN" = some sn

theorem XmlNode.IsQuery.getCmd_eq (h : root.IsQuery cmd s) : getCmd (some root) = (cmd, s) := by
  simp [getCmd, h.name, h.cmd, h.sn]

/-- Without a query there is no command. -/
theorem getCmd_none {document : XmlDocument}
    (h : ∀ root cmd sn, document = some root → ¬ root.IsQuery cmd sn) : getCmd document = ("", "") := by
  cases document with
  | none => rfl
  | some root =>
      by_cases hname : root.name = "Query"
      · cases hcmd : root.child "CmdType" with
        | none => simp [getCmd, hname, hcmd]
        | some cmd =>
            cases hsn : root.child "SN" with
            | none => simp [getCmd, hname, hcmd, hsn]
            | some sn => exact absurd ⟨hname, hcmd, hsn⟩ (h root cmd sn rfl)
      · simp [getCmd, hname]

/-- What the first SN element of a body reads as, in the encoding in which it was written. -/
def snOf (body : String) : Option (List Char) :=
  (behind "<SN>".toList body.toList).bind fun data => text (data.takeWhile (· ≠ '<'))

/-- The bodies of the requests that are sent. -/
def requests (effects : List Effect) : List String :=
  effects.filterMap fun
    | .sendRequest body => some body
    | _ => none

theorem text_behind_sn {front : List Char}
    (hfront : ∀ data, behind "<SN>".toList (front ++ ("<SN>".toList ++ data)) = some data)
    (sn rest : List Char) :
    (behind "<SN>".toList (front ++ ("<SN>".toList ++ (sn ++ ("</SN>\r\n".toList ++ rest))))).bind
      (fun data => text (data.takeWhile (· ≠ '<'))) = text (sn.takeWhile (· ≠ '<')) := by
  have htag : "</SN>\r\n".toList = '<' :: "/SN>\r\n".toList := rfl
  rw [hfront, htag, Option.bind_some, List.cons_append, takeWhile_ne_append]

theorem snOf_catalog (device : Device) (sn : String) :
    snOf (catalogResponse device sn) = text (sn.toList.takeWhile (· ≠ '<')) := by
  have hfront : ∀ data, behind "<SN>".toList
      (("<?xml version=\"1.0\" encoding=\"GB2312\"?>\r\n".toList ++ ("<Response>\r\n".toList ++
        "<CmdType>Catalog</CmdType>\r\n".toList)) ++ ("<SN>".toList ++ data)) = some data :=
    fun _ => rfl
  have hsn := text_behind_sn hfront sn.toList
  unfold snOf catalogResponse
  simp only [String.toList_append, List.append_assoc] at hsn ⊢
  apply hsn

theorem text_decimal (n : Int) : text ((decimal n).takeWhile (· ≠ '<')) = some (decimal n) := by
  have hnot : ∀ c, c ≠ '-' → c.isDigit = false → c ∉ decimal n := by
    intro c hminus hdigit hc
    cases mem_decimal hc with
    | inl h => exact hminus h
    | inr h => exact absurd h (by simp [hdigit])
  rw [text_takeWhile_eq_self_iff, text_eq_self_iff]
  refine ⟨hnot '<' (by decide) rfl, fun c hc => ?_, fun hend => ?_⟩
  · cases mem_decimal hc with
    | inl hminus =>
        rw [hminus]
        decide
    | inr hdigit => exact plain_of_isDigit hdigit
  · exact hnot ']' (by decide) rfl (hend.subset (by decide))

theorem snOf_devicestatus (device : Device) (sn : Int) :
    snOf (devicestatusResponse device sn) = some (decimal sn) := by
  have hfront : ∀ data, behind "<SN>".toList
      (("<?xml version=\"1.0\"?>\r\n".toList ++ ("<Response>\r\n".toList ++
        "<CmdType>DeviceStatus</CmdType>\r\n".toList)) ++ ("<SN>".toList ++ data)) = some data :=
    fun _ => rfl
  have hsn := text_behind_sn hfront (decimal sn)
  rw [← text_decimal]
  unfold snOf devicestatusResponse
  simp only [String.toList_append, List.append_assoc] at hsn ⊢
  apply hsn

theorem snOf_deviceinfo (device : Device) (sn : Int) :
    snOf (deviceinfoResponse device sn) = some (decimal sn) := by
  have hfront : ∀ data, behind "<SN>".toList
      (("<?xml version=\"1.0\"?>\r\n".toList ++ ("<Response>\r\n".toList ++
        "<CmdType>DeviceInfo</CmdType>\r\n".toList)) ++ ("<SN>".toList ++ data)) = some data :=
    fun _ => rfl
  have hsn := text_behind_sn hfront (decimal sn)
  rw [← text_decimal]
  unfold snOf deviceinfoResponse
  simp only [String.toList_append, List.append_assoc] at hsn ⊢
  apply hsn

theorem getSn_eq (counter : Int) :
    getSn counter = if snMax ≤ counter then 1 else counter + 1 := by
  unfold getSn
  split <;> rfl

/-- The commands that the device answers with a request of its own. -/
def IsResponded (cmd : String) : Prop := cmd = "Catalog" ∨ cmd = "DeviceStatus" ∨ cmd = "DeviceInfo"

/-- Each of the three queries is answered with one response, if there is a request to send it in. -/
theorem requests_query (h : root.IsQuery cmd s) (hcmd : IsResponded cmd) :
    requests (processMessage device call tid (some (some root)) counter).1 =
      if device.createMsg then
        [if cmd = "Catalog" then catalogResponse device s
          else if cmd = "DeviceStatus" then devicestatusResponse device (getSn counter)
          else deviceinfoResponse device (getSn counter)]
      else [] := by
  cases hcreate : device.createMsg with
  | false => rcases hcmd with rfl | rfl | rfl <;>
      simp [processMessage, h.getCmd_eq, requests, sendMsg, hcreate]
  | true => rcases hcmd with rfl | rfl | rfl <;>
      simp [processMessage, h.getCmd_eq, requests, sendMsg, hcreate]

/-- The SN of the response is what that of a catalog query stands for, up to a `<` in it, else the
counter. -/
theorem snOf_response (device : Device) (s : String) (counter : Int) (hcmd : IsResponded cmd) :
    snOf (if cmd = "Catalog" then catalogResponse device s
        else if cmd = "DeviceStatus" then devicestatusResponse device (getSn counter)
        else deviceinfoResponse device (getSn counter)) =
      if cmd = "Catalog" then text (s.toList.takeWhile (· ≠ '<'))
        else some (decimal (if snMax ≤ counter then 1 else counter + 1)) := by
  rw [← getSn_eq]
  rcases hcmd with rfl | rfl | rfl
  · rw [if_pos rfl, if_pos rfl, snOf_catalog]
  · rw [if_neg (by decide), if_pos rfl, if_neg (by decide), snOf_devicestatus]
  · rw [if_neg (by decide), if_neg (by decide), if_neg (by decide), snOf_deviceinfo]

/-- The SN stands for itself in an element. -/
def SnPlain (s : String) : Prop :=
  '<' ∉ s.toList ∧ (∀ c ∈ s.toList, Plain c) ∧ ¬ "]]>".toList <:+: s.toList

/-- A response carries the SN of its query if there is a request to send it in, and it answers a
catalog query whose SN stands for itself, or the counter, which the handlers of the other queries
print, stands right in front of that SN. -/
theorem response_sn_iff (h : root.IsQuery cmd s) (hcmd : IsResponded cmd) :
    (∃ body, requests (processMessage device call tid (some (some root)) counter).1 = [body] ∧
        snOf body = some s.toList) ↔
      device.createMsg = true ∧
        ((cmd = "Catalog" ∧ SnPlain s) ∨
          (cmd ≠ "Catalog" ∧ s.toList = decimal (if snMax ≤ counter then 1 else counter + 1))) := by
  have hresponse := snOf_response device s counter hcmd
  rw [requests_query h hcmd]
  cases hcreate : device.createMsg with
  | false => simp
  | true =>
      simp only [if_true, List.cons.injEq, and_true, exists_eq_left', hresponse, true_and]
      by_cases hcatalog : cmd = "Catalog"
      · simp only [hcatalog, if_true, text_takeWhile_eq_self_iff, text_eq_self_iff, SnPlain, true_and,
          ne_eq, not_true_eq_false, false_and, or_false]
      · simp only [hcatalog, if_false, Option.some.injEq, eq_comm, false_and, ne_eq, not_false_eq_true,
          true_and, false_or]

/-- A device, and a query of a kind with the SN 17. -/
def sampleDevice : Device := ⟨{}, "TDWL", "2024-5-17T08:00:00", 0, true⟩

def sampleQuery (cmd : String) : XmlNode := ⟨"Query", [("CmdType", cmd), ("SN", "17"), ("DeviceID", "a")]⟩

theorem catalog_response_sn :
    ∃ body, requests (processMessage sampleDevice ⟨false, 7, 0, 0⟩ 1
        (some (some (sampleQuery "Catalog"))) 0).1 = [body] ∧ snOf body = some "17".toList := by
  have hdigits : "17".toList.all Char.isDigit = true := by decide
  have hend : find "]]>".toList "17".toList = none := by decide
  have hplain : SnPlain "17" :=
    ⟨by decide, fun c hc => plain_of_isDigit (List.all_eq_true.mp hdigits c hc), find_none_iff.mp hend⟩
  exact (response_sn_iff ⟨rfl, rfl, rfl⟩ (Or.inl rfl)).mpr ⟨rfl, Or.inl ⟨rfl, hplain⟩⟩

/-- The first query for the device information is answered with the SN 1. -/
theorem deviceinfo_response_sn_lost :
    ¬ ∃ body, requests (processMessage sampleDevice ⟨false, 7, 0, 0⟩ 1
        (some (some (sampleQuery "DeviceInfo"))) 0).1 = [body] ∧ snOf body = some "17".toList := by
  intro h
  obtain ⟨body, hbody, hsn⟩ := h
  have hquery : (sampleQuery "DeviceInfo").IsQuery "DeviceInfo" "17" := ⟨rfl, rfl, rfl⟩
  have hcreate : sampleDevice.createMsg = true := rfl
  rw [requests_query hquery (Or.inr (Or.inr rfl)), if_pos hcreate, List.cons.injEq] at hbody
  rw [← hbody.1, snOf_response _ _ _ (Or.inr (Or.inr rfl))] at hsn
  exact absurd hsn (by decide)

/-- The answers on a transaction. -/
def answers (tid : Int) (effects : List Effect) : List Nat :=
  effects.filterMap fun
    | .sendAnswer t status => if t = tid then some status else none
    | _ => none

/-- A `mediaProxy` query with its sub-command. -/
structure XmlNode.IsMediaProxy (root : XmlNode) (subCmd : String) : Prop where
  name : root.name = "Query"
  cmd : root.child "CmdType" = some "mediaProxy"
  sn : (root.child "SN").isSome
  subCmd : root.child "CmdSubType" = some subCmd

/-- `createSession` returns once. -/
def SessionCall.Single (call : SessionCall) : Prop :=
  call.known = true ∨ call.fpid = -1 ∨ (0 ≤ call.created ∧ 0 ≤ call.added)

/-- The steps of the processes that the call takes. -/
def SessionCall.events (call : SessionCall) (pid : Int) (start : StartCommand) : List Event :=
  if call.known then [.start pid start]
  else [.start pid start, .fork pid call.fpid, .insert pid] ++
    if call.fpid = -1 then [] else [.childSetUp call.fpid call.created call.added]

section Call

variable {w : World} {pid fpid : Int} {p : Process} {start : StartCommand}

/-- The values with which `createChannel` returns in a run of the processes. -/
theorem SessionCall.returns_of_run (hp : w.process pid = some p) (hpc : p.pc = .processRequest)
    (hknown : call.known = (p.chanMap.subscript start.channel).1.isSome)
    (hfpid : call.fpid = -1 ∨ (0 < call.fpid ∧ w.process call.fpid = none)) :
    ∃ w' new, run step w (call.events pid start) = some w' ∧
      w'.returns = w.returns ++ new ∧ new.map Return.result = call.returned := by
  cases hentry : (p.chanMap.subscript start.channel).1 with
  | some entry =>
      have hcall : call.known = true := by rw [hknown, hentry, Option.isSome_some]
      obtain ⟨w', hstart, hreturns⟩ := World.start_known hp hpc hentry
      rw [events, if_pos hcall, run_cons hstart]
      exact ⟨w', _, rfl, hreturns, by simp [returned, hcall]⟩
  | none =>
      have hcall : ¬ call.known = true := by simp [hknown, hentry]
      obtain ⟨w₁, p₁, hstart, hp₁, hpc₁, hreturns₁, hother₁⟩ := World.start_new hp hpc hentry
      rw [events, if_neg hcall, List.cons_append, run_cons hstart, List.cons_append, List.cons_append,
        List.nil_append]
      by_cases hfork : call.fpid = -1
      · obtain ⟨w₂, p₂, hforked, hp₂, hpc₂, hreturns₂⟩ := World.fork_failed hp₁ hpc₁
        obtain ⟨w', hinsert, hreturns, -⟩ := World.insert_forked hp₂ hpc₂
        rw [hfork, run_cons hforked, run_cons hinsert, if_pos rfl]
        exact ⟨w', _, rfl, by rw [hreturns, hreturns₂, hreturns₁], by simp [returned, hcall, hfork]⟩
      · obtain ⟨hpos, hfree⟩ := hfpid.resolve_left hfork
        have hne : call.fpid ≠ pid := by
          intro heq
          rw [heq, hp] at hfree
          cases hfree
        obtain ⟨w₂, p₂, child, hforked, hp₂, hpc₂, hchild, hchildPc, hreturns₂⟩ :=
          World.fork_child hp₁ hpc₁ hpos ((hother₁ _ hne).trans hfree)
        obtain ⟨w₃, hinsert, hreturns₃, hother₃⟩ := World.insert_forked hp₂ hpc₂
        obtain ⟨w', hsetUp, hreturns⟩ := World.childSetUp_returns
          ((hother₃ _ hne).trans hchild) hchildPc call.created call.added
        rw [run_cons hforked, run_cons hinsert, if_neg hfork, run_cons hsetUp]
        rw [hreturns₃, hreturns₂, hreturns₁, List.append_assoc] at hreturns
        apply Exists.intro w'
        apply Exists.intro _
        apply And.intro rfl
        apply And.intro hreturns
        by_cases hfails : setUp call.created call.added < 0
        · simp [returned, hcall, hfork, hfails]
        · simp [returned, hcall, hfork, hfails]

end Call

theorem SessionCall.returned_length (call : SessionCall) :
    call.returned.length = 1 ↔ call.Single := by
  have hneg := World.setUp_neg_iff call.created call.added
  unfold returned Single
  by_cases hknown : call.known = true
  · simp [hknown]
  · by_cases hfork : call.fpid = -1
    · simp [hknown, hfork]
    · by_cases hsetUp : setUp call.created call.added < 0
      · simp [hknown, hfork, hsetUp, hneg.mp hsetUp]
      · simp [hknown, hfork, hsetUp, not_not.mp (mt hneg.mpr hsetUp)]

theorem answers_returned (tid : Int) (statuses : List Int) :
    (answers tid (statuses.map fun status =>
      if status = 0 then sendResponseOk tid else sendResponseErr tid)).length = statuses.length := by
  induction statuses with
  | nil => rfl
  | cons status statuses ih =>
      by_cases hzero : status = 0
      · simpa [answers, hzero, sendResponseOk] using ih
      · simpa [answers, hzero, sendResponseErr] using ih

theorem answers_mediaProxy (document : XmlDocument) :
    (answers tid (processMediaProxy device call tid document)).length = 1 ↔
      getValueByNodeName document "CmdSubType" = "end" ∨
        (getValueByNodeName document "CmdSubType" = "start" ∧ call.Single) := by
  unfold processMediaProxy
  by_cases hstart : getValueByNodeName document "CmdSubType" = "start"
  · simp only [hstart, if_true, String.reduceEq, false_or, true_and]
    rw [← call.returned_length, ← answers_returned tid call.returned]
    rfl
  · by_cases hend : getValueByNodeName document "CmdSubType" = "end"
    · simp [hend, answers, sendResponseOk]
    · by_cases hparam : getValueByNodeName document "CmdSubType" = "setVideoParam"
      · simp [hparam, answers]
      · simp [hstart, hend, hparam, answers]

theorem answers_sendMsg (body : String) : answers tid (sendMsg device body) = [] := by
  unfold sendMsg
  split
  · rfl
  · rfl

/-- No other command is answered on the transaction of its MESSAGE. -/
theorem answers_of_ne_mediaProxy {document : XmlDocument}
    (h : (getCmd document).1 ≠ "mediaProxy") :
    answers tid (processMessage device call tid (some document) counter).1 = [] := by
  unfold processMessage
  simp only
  split
  · exact answers_sendMsg _
  · split
    · exact answers_sendMsg _
    · split
      · exact answers_sendMsg _
      · split
        · rfl
        · rfl

theorem processMessage_mediaProxy {document : XmlDocument}
    (h : (getCmd document).1 = "mediaProxy") :
    (processMessage device call tid (some document) counter).1 =
      processMediaProxy device call tid document := by
  simp [processMessage, h]

theorem getCmd_mediaProxy {document : XmlDocument} (h : (getCmd document).1 = "mediaProxy") :
    ∃ root sn, document = some root ∧ root.IsQuery "mediaProxy" sn := by
  by_contra hnone
  push Not at hnone
  have hempty : getCmd document = ("", "") := by
    apply getCmd_none
    intro root cmd sn hroot hquery
    have hcmd : cmd = "mediaProxy" := by
      rw [hroot, hquery.getCmd_eq] at h
      exact h
    exact hnone root sn hroot (hcmd ▸ hquery)
  rw [hempty] at h
  exact absurd h (by decide)

/-- The sub-command of a query, as far as it can be compared with one that is not empty. -/
theorem getValueByNodeName_eq_iff {nodeName value : String} (hname : root.name = "Query")
    (hvalue : value ≠ "") :
    getValueByNodeName (some root) nodeName = value ↔ root.child nodeName = some value := by
  simp only [getValueByNodeName, hname, ne_eq, not_true_eq_false, if_false]
  cases root.child nodeName with
  | none => simpa using hvalue.symm
  | some v => simp

/-- A MESSAGE is answered exactly once if it is a `mediaProxy` query that ends a session, or one that
starts a session where `createSession` returns in one process only. -/
theorem processMessage_answers_once_iff (device : Device) (call : SessionCall) (tid : Int)
    (body : Option XmlDocument) (counter : Int) :
    (answers tid (processMessage device call tid body counter).1).length = 1 ↔
      ∃ root, body = some (some root) ∧
        (root.IsMediaProxy "end" ∨ (root.IsMediaProxy "start" ∧ call.Single)) := by
  cases body with
  | none => simp [processMessage, answers]
  | some document =>
      by_cases hcmd : (getCmd document).1 = "mediaProxy"
      · obtain ⟨root, sn, rfl, hquery⟩ := getCmd_mediaProxy hcmd
        have hmedia : ∀ subCmd, subCmd ≠ "" →
            (root.IsMediaProxy subCmd ↔ getValueByNodeName (some root) "CmdSubType" = subCmd) := by
          intro subCmd hne
          rw [getValueByNodeName_eq_iff hquery.name hne]
          exact ⟨fun h => h.subCmd, fun h => ⟨hquery.name, hquery.cmd, by rw [hquery.sn]; rfl, h⟩⟩
        rw [processMessage_mediaProxy hcmd, answers_mediaProxy]
        simp only [Option.some.injEq, exists_eq_left', hmedia _ (by decide : "end" ≠ ""),
          hmedia _ (by decide : "start" ≠ "")]
      · rw [answers_of_ne_mediaProxy hcmd]
        constructor
        · intro h
          cases h
        · intro h
          obtain ⟨root, hroot, hmedia⟩ := h
          exfalso
          apply hcmd
          have hquery : ∀ subCmd, root.IsMediaProxy subCmd →
              (getCmd (some root)).1 = "mediaProxy" := by
            intro subCmd h
            obtain ⟨sn, hsn⟩ := Option.isSome_iff_exists.mp h.sn
            rw [XmlNode.IsQuery.getCmd_eq ⟨h.name, h.cmd, hsn⟩]
          rw [Option.some.inj hroot]
          exact hmedia.elim (hquery "end") fun h => hquery "start" h.1

/-- A MESSAGE without a body gets no answer at all. -/
theorem message_unanswered :
    (answers 1 (processMessage sampleDevice ⟨false, 7, 0, 0⟩ 1 none 0).1).length ≠ 1 := by
  decide

end GMProxy.TdDevice
