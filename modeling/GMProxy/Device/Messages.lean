import GMProxy.Conf.TdConf
import GMProxy.Device.Processes

/-!
# The messages of the device

`TdDevice::process_request` for a MESSAGE, from the document that the XML parser makes of its body to
the requests and answers it sends, and the counter `sn` that its messages share.
-/

namespace GMProxy.TdDevice

open Conf Decimal

/-- The first node of a body, with the tags and values of its children. -/
structure XmlNode where
  name : String
  children : List (String × String)
deriving DecidableEq, Repr

/-- None if the body cannot be parsed or has no node. -/
abbrev XmlDocument := Option XmlNode

def XmlNode.child (node : XmlNode) (tag : String) : Option String :=
  (node.children.find? fun c => c.1 = tag).map Prod.snd

/-- `get_cmd`: the command and its SN. -/
def getCmd : XmlDocument → String × String
  | none => ("", "")
  | some root =>
      if root.name ≠ "Query" then ("", "")
      else
        match root.child "CmdType" with
        | none => ("", "")
        | some cmd =>
            match root.child "SN" with
            | none => ("", "")
            | some sn => (cmd, sn)

def getValueByNodeName (document : XmlDocument) (nodeName : String) : String :=
  match document with
  | none => ""
  | some root => if root.name ≠ "Query" then "" else (root.child nodeName).getD ""

/-- `string2int`: a text without a character to read leaves the variable as it was. -/
def string2int (uninitialized : Int) (data : String) : Int :=
  match data.toList.dropWhile Inifile.isspace with
  | [] => uninitialized
  | text => max (-2 ^ 31) (min (2 ^ 31 - 1) (parse text))

/-- What a MESSAGE is handled with besides its body; `createMsg` is whether `create_msg` gets a request
for the response. -/
structure Device where
  mGB28121Ctx : GB28121Ctx
  manufacture : String
  curtime : String
  uninitialized : Int
  createMsg : Bool

def snMax : Int := 99999999

/-- `get_sn`, from the old value of the counter to the new one, which it returns. -/
def getSn (sn : Int) : Int := (if snMax ≤ sn then 0 else sn) + 1

variable (device : Device)

/-- The body of `process_catalog_query`. -/
def catalogResponse (sn : String) : String :=
  "<?xml version=\"1.0\" encoding=\"GB2312\"?>\r\n" ++
  "<Response>\r\n" ++
  "<CmdType>Catalog</CmdType>\r\n" ++
  "<SN>" ++ sn ++ "</SN>\r\n" ++
  "<DeviceID>" ++ device.mGB28121Ctx.mDevideId ++ "</DeviceID>\r\n" ++
  "<SumNum>" ++ "1" ++ "</SumNum>\r\n" ++
  "<DeviceList Num=\"" ++ "1" ++ "\">\r\n" ++
  "<Item>\r\n" ++
  "<DeviceID>" ++ device.mGB28121Ctx.mDevideId ++ "</DeviceID>\r\n" ++
  "<Manufacturer>" ++ device.manufacture ++ "</Manufacturer>\r\n" ++
  "<Status>ON</Status>\r\n" ++
  "<Name>MediaProxy</Name>\r\n" ++
  "<ParentID>" ++ device.mGB28121Ctx.mServerSipId ++ "</ParentID>\r\n" ++
  "</Item>\r\n" ++
  "</DeviceList>\r\n" ++
  "</Response>\r\n"

/-- The body of `process_devicestatus_query`; `sn` is the value of `get_sn`. -/
def devicestatusResponse (sn : Int) : String :=
  "<?xml version=\"1.0\"?>\r\n" ++
  "<Response>\r\n" ++
  "<CmdType>DeviceStatus</CmdType>\r\n" ++
  "<SN>" ++ toString sn ++ "</SN>\r\n" ++
  "<DeviceID>" ++ device.mGB28121Ctx.mDevideId ++ "</DeviceID>\r\n" ++
  "<Result>OK</Result>\r\n" ++
  "<Online>ONLINE</Online>\r\n" ++
  "<Status>OK</Status>\r\n" ++
  "<DeviceTime>" ++ device.curtime ++ "</DeviceTime>\r\n" ++
  "<Alarmstatus Num=\"0\">\r\n" ++
  "</Alarmstatus>\r\n" ++
  "<Encode>ON</Encode>\r\n" ++
  "<Record>OFF</Record>\r\n" ++
  "</Response>\r\n"

/-- The body of `process_deviceinfo_query`; `sn` is the value of `get_sn`. -/
def deviceinfoResponse (sn : Int) : String :=
  "<?xml version=\"1.0\"?>\r\n" ++
  "<Response>\r\n" ++
  "<CmdType>DeviceInfo</CmdType>\r\n" ++
  "<SN>" ++ toString sn ++ "</SN>\r\n" ++
  "<DeviceID>" ++ device.mGB28121Ctx.mDevideId ++ "</DeviceID>\r\n" ++
  "<DeviceName>jiuli</DeviceName>" ++
  "<Name>媒体代理服务</Name>\r\n" ++
  "<Result>OK</Result>\r\n" ++
  "<DeviceType>GMProxy</DeviceType>\r\n" ++
  "<Manufacturer>TDWL</Manufacturer>\r\n" ++
  "<Model>CH-QDLC-21-01020-MP</Model>\r\n" ++
  "<Firmware>v1.0.2</Firmware>\r\n" ++
  "<MaxCamera>1</MaxCamera>\r\n" ++
  "<MaxAlarm>0</MaxAlarm>\r\n" ++
  "</Response>\r\n"

/-- The body of a Keepalive; `sn` is the value of `get_sn`. -/
def keepaliveNotify (sn : Int) : String :=
  "<?xml version=\"1.0\"?>\r\n" ++
  "<Notify>\r\n" ++
  "<CmdType>Keepalive</CmdType>\r\n" ++
  "<SN>" ++ toString sn ++ "</SN>\r\n" ++
  "<DeviceID>" ++ device.mGB28121Ctx.mDevideId ++ "</DeviceID>\r\n" ++
  "<Status>OK</Status>\r\n" ++
  "</Notify>\r\n"

/-- How a call of `createSession` goes: whether the channel is known, what `fork` returns, and what
`Create` and `AddDestination` return in the child. -/
structure SessionCall where
  known : Bool
  fpid : Int
  created : Int
  added : Int

/-- The values with which the call returns: in the caller, and in the child if its `setUp` fails. -/
def SessionCall.returned (call : SessionCall) : List Int :=
  if call.known then [-1]
  else if call.fpid ≠ -1 ∧ setUp call.created call.added < 0 then [0, setUp call.created call.added]
  else [0]

/-- What `process_request` does for a MESSAGE. -/
inductive Effect where
  | sendRequest (body : String)
  | sendAnswer (tid : Int) (status : Nat)
  | createSession (cmd : StartCommand)
  | destorySession (channel : String)
  | setCodecParam (channel : String) (rate : Int) (resolution : String) (maxBitrate : Int)
deriving DecidableEq

def sendResponseOk (tid : Int) : Effect := .sendAnswer tid 200
def sendResponseErr (tid : Int) : Effect := .sendAnswer tid 403

/-- The branch of `mediaProxy`. -/
def processMediaProxy (call : SessionCall) (tid : Int) (document : XmlDocument) : List Effect :=
  let channel := getValueByNodeName document "DeviceID"
  let subCmd := getValueByNodeName document "CmdSubType"
  if subCmd = "start" then
    let cmd : StartCommand :=
      { channel := channel
        destHost := getValueByNodeName document "DestHost"
        destPort := string2int device.uninitialized (getValueByNodeName document "DestPort")
        basePort := string2int device.uninitialized (getValueByNodeName document "BasePort")
        resolutionStr := getValueByNodeName document "Resolution" }
    .createSession cmd ::
      call.returned.map fun status => if status = 0 then sendResponseOk tid else sendResponseErr tid
  else if subCmd = "end" then [.destorySession channel, sendResponseOk tid]
  else if subCmd = "setVideoParam" then
    [.setCodecParam channel
      (string2int device.uninitialized (getValueByNodeName document "Rate"))
      (getValueByNodeName document "Resolution")
      (string2int device.uninitialized (getValueByNodeName document "MaxBitrate"))]
  else []

/-- The end of the three query handlers; without a request nothing is sent. -/
def sendMsg (body : String) : List Effect := if device.createMsg then [.sendRequest body] else []

/-- A MESSAGE, with the counter before and after it. -/
def processMessage (call : SessionCall) (tid : Int) (body : Option XmlDocument) (counter : Int) :
    List Effect × Int :=
  match body with
  | none => ([], counter)
  | some document =>
      let (cmd, sn) := getCmd document
      if cmd = "Catalog" then (sendMsg device (catalogResponse device sn), counter)
      else if cmd = "DeviceStatus" then
        (sendMsg device (devicestatusResponse device (getSn counter)), getSn counter)
      else if cmd = "DeviceInfo" then
        (sendMsg device (deviceinfoResponse device (getSn counter)), getSn counter)
      else if cmd = "DeviceControl" then ([], counter)
      else if cmd = "mediaProxy" then (processMediaProxy device call tid document, counter)
      else ([], counter)

end GMProxy.TdDevice
