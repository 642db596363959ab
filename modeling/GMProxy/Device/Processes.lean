import GMProxy.Channel.Manager

/-!
# The processes behind `createChannel`

`process_request` of `TdDevice` takes a start command, `createChannel` forks, and the two processes
go on in their own branches, each with its own copy of the table. The parent inserts the channel and
returns; the child sets up its RTP session and stays in `TdRtp::start`, or returns when `setUp` fails.
-/

namespace GMProxy.TdDevice

open TdChannel

/-- A `mediaProxy` message with `CmdSubType` start. -/
structure StartCommand where
  channel : String
  destHost : String
  destPort : Int
  basePort : Int
  resolutionStr : String
deriving DecidableEq, Repr

def StartCommand.param (cmd : StartCommand) : ChanMediaParam :=
  if cmd.resolutionStr = "" then {} else { mRes := Resolution.ofString cmd.resolutionStr }

/-- `TdRtp` as far as `setUp` and `setParam` fill it in. -/
structure RtpParams where
  lable : String
  destIp : String
  destPort : UInt16
  basePort : UInt16
  codecParam : CodecParam
deriving DecidableEq, Repr

def StartCommand.rtp (cmd : StartCommand) : RtpParams where
  lable := cmd.channel
  destIp := cmd.destHost
  destPort := UInt16.ofInt cmd.destPort
  basePort := UInt16.ofInt cmd.basePort
  codecParam := ⟨cmd.param.mRes.mHeight, cmd.param.mRes.mWidth, cmd.param.fps, cmd.param.maxBitrate⟩

/-- `TdRtp::setUp`, given what `Create` and `AddDestination` of the RTP session return. -/
def setUp (created added : Int) : Int :=
  if created < 0 then -1 else if added < 0 then -2 else 0

/-- Where a process stands. -/
inductive Pc where
  | processRequest
  | checked (cmd : StartCommand)
  | forked (cmd : StartCommand) (fpid : Int)
  | settingUp (cmd : StartCommand)
  | starting (rtp : RtpParams)
  | running (rtp : RtpParams)
  | exited (status : Int)
deriving DecidableEq, Repr

/-- The process is in the event loop, or in a call from it outside the child's branch. -/
def Pc.serves : Pc → Prop
  | processRequest | checked _ | forked _ _ => True
  | settingUp _ | starting _ | running _ | exited _ => False

/-- A process; `forkedFor` is a history: the channel it was forked for. -/
structure Process where
  chanMap : ChanMap
  heap : Ptr → Option Channel
  nextPtr : Ptr
  pc : Pc
  forkedFor : Option String

/-- The parent enters the new `Channel` into its table. -/
def Process.insertChannel (p : Process) (cmd : StartCommand) (fpid : Int) : Process :=
  let lChannel : Channel := ⟨fpid, fifoPath cmd.channel, cmd.channel, cmd.param⟩
  { p with
    heap := Function.update p.heap p.nextPtr (some lChannel)
    chanMap := p.chanMap.insert cmd.channel (some p.nextPtr)
    nextPtr := p.nextPtr + 1 }

/-- A call of `createChannel` that has returned; `fpid` is its local variable, if it was set. -/
structure Return where
  process : Int
  channel : String
  fpid : Option Int
  result : Int
deriving DecidableEq, Repr

/-- The processes, and as a history the calls that have returned. -/
structure World where
  process : Int → Option Process
  returns : List Return

namespace World

variable (w : World)

def setProcess (pid : Int) (p : Process) : World :=
  { w with process := Function.update w.process pid (some p) }

def addReturn (r : Return) : World := { w with returns := w.returns ++ [r] }

/-- The original process in its event loop. -/
def init (original : Int) : World :=
  setProcess ⟨fun _ => none, []⟩ original ⟨∅, fun _ => none, 0, .processRequest, none⟩

/-- A process in the loop takes a start command and makes the check of `createChannel`. -/
def start (pid : Int) (cmd : StartCommand) : Option World :=
  match w.process pid with
  | some p =>
      match p.pc with
      | .processRequest =>
          let (entry, chanMap) := p.chanMap.subscript cmd.channel
          let p := { p with chanMap := chanMap }
          match entry with
          | some _ => some ((w.setProcess pid p).addReturn ⟨pid, cmd.channel, none, -1⟩)
          | none => some (w.setProcess pid { p with pc := .checked cmd })
      | _ => none
  | none => none

/-- `fork`: it fails, or it makes a copy of the process under a new pid. -/
def fork (pid fpid : Int) : Option World :=
  match w.process pid with
  | some p =>
      match p.pc with
      | .checked cmd =>
          let w' := w.setProcess pid { p with pc := .forked cmd fpid }
          if fpid = -1 then some w'
          else if 0 < fpid ∧ (w.process fpid).isNone then
            some (w'.setProcess fpid
              { p with pc := .settingUp cmd, forkedFor := some cmd.channel })
          else none
      | _ => none
  | none => none

/-- The branch of the parent, also after a failed `fork`. -/
def insert (pid : Int) : Option World :=
  match w.process pid with
  | some p =>
      match p.pc with
      | .forked cmd fpid =>
          some ((w.setProcess pid { p.insertChannel cmd fpid with pc := .processRequest }).addReturn
            ⟨pid, cmd.channel, some fpid, 0⟩)
      | _ => none
  | none => none

/-- `setUp` in the child. When it fails, `createChannel` returns its status. -/
def childSetUp (pid created added : Int) : Option World :=
  match w.process pid with
  | some p =>
      match p.pc with
      | .settingUp cmd =>
          let status := TdDevice.setUp created added
          if status < 0 then
            some ((w.setProcess pid { p with pc := .processRequest }).addReturn
              ⟨pid, cmd.channel, some 0, status⟩)
          else some (w.setProcess pid { p with pc := .starting cmd.rtp })
      | _ => none
  | none => none

/-- `TdRtp::start`, given what `Create` of its FIFO returns. It does not return. -/
def childStart (pid created : Int) : Option World :=
  match w.process pid with
  | some p =>
      match p.pc with
      | .starting rtp =>
          some (w.setProcess pid { p with
            pc := if rtp.lable = "" then .exited 1
              else if created ≠ 0 then .exited 0
              else .running rtp })
      | _ => none
  | none => none

end World

inductive Event where
  | start (pid : Int) (cmd : StartCommand)
  | fork (pid fpid : Int)
  | insert (pid : Int)
  | childSetUp (pid created added : Int)
  | childStart (pid created : Int)

def step (w : World) : Event → Option World
  | .start pid cmd => w.start pid cmd
  | .fork pid fpid => w.fork pid fpid
  | .insert pid => w.insert pid
  | .childSetUp pid created added => w.childSetUp pid created added
  | .childStart pid created => w.childStart pid created

end GMProxy.TdDevice
