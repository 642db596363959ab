import GMProxy.Device.Answers

/-!
# Numbers in messages

`string2int` extracts into a variable that nobody has set. A text with nothing to read leaves what
happened to be there, and `process_request` goes on with it.
-/

namespace GMProxy.TdDevice

open Conf Decimal

/-- There is no character that the extraction stops skipping at. -/
def Blank (data : String) : Prop := ∀ c ∈ data.toList, Inifile.isspace c = true

instance : DecidablePred Blank :=
  fun data => inferInstanceAs (Decidable (∀ c ∈ data.toList, Inifile.isspace c = true))

/-- The nodes of a body whose texts `process_request` turns into numbers. -/
def integerNodes (document : XmlDocument) : List String :=
  if (getCmd document).1 ≠ "mediaProxy" then []
  else if getValueByNodeName document "CmdSubType" = "start" then ["DestPort", "BasePort"]
  else if getValueByNodeName document "CmdSubType" = "setVideoParam" then ["Rate", "MaxBitrate"]
  else []

/-- The numbers; `contents` is what the variable holds when the text of a node is read. -/
def integerFields (document : XmlDocument) (contents : String → Int) : List Int :=
  (integerNodes document).map fun node =>
    string2int (contents node) (getValueByNodeName document node)

variable {data : String} {document : XmlDocument} {device : Device} {call : SessionCall}
  {tid counter : Int}

theorem string2int_blank (u : Int) (h : Blank data) : string2int u data = u := by
  have hnone : data.toList.dropWhile Inifile.isspace = [] := List.dropWhile_eq_nil_iff.mpr h
  rw [string2int, hnone]

theorem string2int_of_not_blank (u v : Int) (h : ¬ Blank data) :
    string2int u data = string2int v data := by
  unfold string2int
  cases htext : data.toList.dropWhile Inifile.isspace with
  | nil => exact absurd (List.dropWhile_eq_nil_iff.mp htext) h
  | cons c text => rfl

theorem string2int_agree_iff :
    (∀ u v, string2int u data = string2int v data) ↔ ¬ Blank data := by
  constructor
  · intro hagree hblank
    have hsame := hagree 0 1
    rw [string2int_blank 0 hblank, string2int_blank 1 hblank] at hsame
    exact absurd hsame (by decide)
  · intro hblank u v
    exact string2int_of_not_blank u v hblank

theorem integerFields_agree_iff :
    (∀ contents contents', integerFields document contents = integerFields document contents') ↔
      ∀ node ∈ integerNodes document, ¬ Blank (getValueByNodeName document node) := by
  unfold integerFields
  constructor
  · intro hagree node hnode
    rw [← string2int_agree_iff]
    intro u v
    exact List.map_inj_left.mp (hagree (fun _ => u) fun _ => v) node hnode
  · intro hblank contents contents'
    apply List.map_congr_left
    intro node hnode
    exact string2int_of_not_blank _ _ (hblank node hnode)

private theorem processMediaProxy_congr_iff (u v : Int) (hcmd : (getCmd document).1 = "mediaProxy") :
    processMediaProxy { device with uninitialized := u } call tid document =
        processMediaProxy { device with uninitialized := v } call tid document ↔
      integerFields document (fun _ => u) = integerFields document fun _ => v := by
  unfold processMediaProxy integerFields integerNodes
  by_cases hstart : getValueByNodeName document "CmdSubType" = "start"
  · simp [hcmd, hstart]
  · by_cases hend : getValueByNodeName document "CmdSubType" = "end"
    · simp [hcmd, hend]
    · by_cases hparam : getValueByNodeName document "CmdSubType" = "setVideoParam"
      · simp [hcmd, hparam]
      · simp [hcmd, hstart, hend, hparam]

/-- What a message makes the device do depends on the variable only through the numbers. -/
theorem processMessage_congr_iff (u v : Int) :
    processMessage { device with uninitialized := u } call tid (some document) counter =
        processMessage { device with uninitialized := v } call tid (some document) counter ↔
      integerFields document (fun _ => u) = integerFields document fun _ => v := by
  by_cases hcmd : (getCmd document).1 = "mediaProxy"
  · have hmedia (d : Device) : processMessage d call tid (some document) counter =
        (processMediaProxy d call tid document, counter) := by
      simp [processMessage, hcmd]
    rw [hmedia, hmedia, Prod.mk.injEq]
    simp only [processMediaProxy_congr_iff u v hcmd, and_true]
  · have hnone : integerNodes document = [] := if_pos hcmd
    simp only [processMessage, hcmd, if_false, integerFields, hnone, List.map_nil, iff_true]
    rfl

/-- A number is determined by its text exactly when the text is not blank. What a message makes the
device do, and the numbers it reads for that, are determined by the body exactly when none of the
texts is blank. -/
theorem string2int_determined_iff (data : String) (document : XmlDocument) :
    ((∀ u v, string2int u data = string2int v data) ↔ ¬ Blank data) ∧
    ((∀ contents contents', integerFields document contents = integerFields document contents') ↔
      ∀ node ∈ integerNodes document, ¬ Blank (getValueByNodeName document node)) ∧
    ∀ (device : Device) (call : SessionCall) (tid counter : Int),
      (∀ u v, processMessage { device with uninitialized := u } call tid (some document) counter =
        processMessage { device with uninitialized := v } call tid (some document) counter) ↔
      ∀ node ∈ integerNodes document, ¬ Blank (getValueByNodeName document node) := by
  refine ⟨string2int_agree_iff, integerFields_agree_iff, ?_⟩
  intro device call tid counter
  simp only [processMessage_congr_iff]
  constructor
  · intro hagree node hnode
    rw [← string2int_agree_iff]
    intro u v
    exact List.map_inj_left.mp (hagree u v) node hnode
  · intro hblank u v
    exact integerFields_agree_iff.mpr hblank _ _

/-- A start without `DestPort`: its port is what the variable held. -/
def startWithoutPort : XmlDocument := some ⟨"Query", [("CmdType", "mediaProxy"), ("SN", "17"),
  ("DeviceID", "x"), ("CmdSubType", "start"), ("DestHost", "h"), ("BasePort", "30000")]⟩

theorem destPort_undetermined :
    string2int 0 "" ≠ string2int 1 "" ∧
      processMessage { sampleDevice with uninitialized := 0 } ⟨false, 7, 0, 0⟩ 1 (some startWithoutPort) 0 ≠
        processMessage { sampleDevice with uninitialized := 1 } ⟨false, 7, 0, 0⟩ 1
          (some startWithoutPort) 0 := by
  decide

end GMProxy.TdDevice
