import Mathlib.Data.Finmap
import Mathlib.Data.Finset.Sort
import Mathlib.Data.String.Basic

/-!
# The channel manager

`TdChanManager` in the original process: the operations of its threads and of the deletion worker,
cut at the points where other threads can come in between. A critical section under a mutex is one
step and needs the mutex to be free; the map access of the `setCodecParam` listener takes no lock.
-/

namespace GMProxy.TdChannel

structure Resolution where
  mResolutionStr : String
  mWidth : Int
  mHeight : Int
deriving DecidableEq, Repr

/-- `Resolution_t(ResolutionStr)`. -/
def Resolution.ofString (resolutionStr : String) : Resolution :=
  if resolutionStr = "1080p" then ⟨resolutionStr, 1920, 1080⟩
  else if resolutionStr = "720p" then ⟨resolutionStr, 1280, 720⟩
  else if resolutionStr = "qHD" then ⟨resolutionStr, 960, 540⟩
  else if resolutionStr = "nHD" then ⟨resolutionStr, 640, 360⟩
  else if resolutionStr = "WQVGA" then ⟨resolutionStr, 480, 272⟩
  else if resolutionStr = "FWQVGA" then ⟨resolutionStr, 432, 240⟩
  else ⟨resolutionStr, 960, 540⟩

structure ChanMediaParam where
  mRes : Resolution := Resolution.ofString "WQVGA"
  fps : Int := 25
  maxBitrate : Int := 300000
deriving DecidableEq, Repr

structure CodecParam where
  height : Int
  width : Int
  rate : Int
  maxBitrate : Int
deriving DecidableEq, Repr

/-- `Channel`; of its FIFO session the name, as `Create` sets it. -/
structure Channel where
  pid : Int
  fifoName : String
  chanName : String
  mCMediaParam : ChanMediaParam
deriving DecidableEq, Repr

/-- `mFifoName` after `Create(fifoName)`. -/
def fifoPath (fifoName : String) : String := "/tmp/" ++ fifoName

abbrev Ptr := Nat

abbrev ChanMap := Finmap fun _ : String => Option Ptr

/-- `chanMap[key]`: an absent key is inserted with a null pointer. -/
def ChanMap.subscript (m : ChanMap) (key : String) : Option Ptr × ChanMap :=
  match m.lookup key with
  | some entry => (entry, m)
  | none => (none, m.insert key none)

/-- A child process as the kernel and the file system see it: the channel it was forked for, the
signals sent to it, whether it has made its FIFO and whether it has been reaped. -/
structure Child where
  chan : String
  signals : Nat
  started : Bool
  reaped : Bool
deriving DecidableEq, Repr

/-- Where a thread stands inside an operation of the manager. -/
inductive Pc where
  | idle
  | createChecked (channel : String) (param : ChanMediaParam)
  | createForked (channel : String) (param : ChanMediaParam) (fpid : Int)
  | createBuilt (channel : String) (lChannel : Ptr)
  | codecFound (ch : Ptr) (lCodecpara : CodecParam)
  | codecWritten (ch : Ptr) (lCodecpara : CodecParam)
  | presetFound (lChannel : Ptr) (param : ChanMediaParam)
  | presetWritten (lChannel : Ptr) (param : ChanMediaParam)
deriving DecidableEq, Repr

/-- Where the deletion worker stands inside a pass of its loop. -/
inductive WorkerPc where
  | idle
  | popped (chanId : String)
  | taken (chanId : String) (lChannel : Ptr)
  | killed (chanId : String) (lChannel : Ptr)
  | waited (chanId : String) (lChannel : Ptr)
  | unlinked (chanId : String) (lChannel : Ptr)
deriving DecidableEq, Repr

/-- The manager, its threads and its children. Two components are histories:
`commands` lists the commands written, with the FIFO each one went to, and `live` are the names of the
channels created and not yet removed. -/
structure Manager where
  chanMap : ChanMap
  chanMapLocked : Bool
  delChanList : List String
  delChanLocked : Bool
  heap : Ptr → Option Channel
  nextPtr : Ptr
  threads : Nat → Pc
  worker : WorkerPc
  children : Int → Option Child
  commands : List (String × CodecParam)
  live : Finset String

def Manager.init : Manager :=
  ⟨∅, false, [], false, fun _ => none, 0, fun _ => .idle, .idle, fun _ => none, [], ∅⟩

namespace Manager

variable (s : Manager)

def setThread (t : Nat) (pc : Pc) : Manager := { s with threads := Function.update s.threads t pc }

def setHeap (p : Ptr) (c : Option Channel) : Manager := { s with heap := Function.update s.heap p c }

def setChild (pid : Int) (child : Child) : Manager :=
  { s with children := Function.update s.children pid (some child) }

/-- The check under the lock. -/
def createCheck (t : Nat) (channel : String) (param : ChanMediaParam) : Option Manager :=
  if s.chanMapLocked then none
  else match s.threads t with
  | .idle =>
      let (entry, chanMap) := s.chanMap.subscript channel
      let s := { s with chanMap := chanMap }
      match entry with
      | some _ => some s
      | none => some (s.setThread t (.createChecked channel param))
  | _ => none

/-- `fork` in the parent: it fails, or it gives a pid that no unreaped child has. -/
def createFork (t : Nat) (fpid : Int) : Option Manager :=
  match s.threads t with
  | .createChecked channel param =>
      if fpid = -1 then some (s.setThread t (.createForked channel param fpid))
      else if 0 < fpid ∧ ∀ child ∈ s.children fpid, child.reaped then
        some ((s.setChild fpid ⟨channel, 0, false, false⟩).setThread t
          (.createForked channel param fpid))
      else none
  | _ => none

/-- The new `Channel`, also after a failed `fork` or a failed `mkfifo`. -/
def createBuild (t : Nat) : Option Manager :=
  match s.threads t with
  | .createForked channel param fpid =>
      let s := s.setHeap s.nextPtr (some ⟨fpid, fifoPath channel, channel, param⟩)
      some ({ s with nextPtr := s.nextPtr + 1 }.setThread t (.createBuilt channel s.nextPtr))
  | _ => none

def createInsert (t : Nat) : Option Manager :=
  if s.chanMapLocked then none
  else match s.threads t with
  | .createBuilt channel lChannel =>
      let s := { s with
        chanMap := s.chanMap.insert channel (some lChannel), live := insert channel s.live }
      some (s.setThread t .idle)
  | _ => none

/-- The child process makes its FIFO in `TdRtp::start`. -/
def childFifo (pid : Int) : Option Manager :=
  match s.children pid with
  | some child =>
      if child.started ∨ child.reaped then none
      else some (s.setChild pid { child with started := true })
  | none => none

def delChannel (channle : String) : Option Manager :=
  if s.delChanLocked then none else some { s with delChanList := channle :: s.delChanList }

def workerPop : Option Manager :=
  if s.delChanLocked then none
  else match s.worker, s.delChanList with
  | .idle, [] => some s
  | .idle, chanId :: delChanList =>
      let s := { s with delChanList := delChanList }
      if chanId = "" then some s else some { s with worker := .popped chanId }
  | _, _ => none

def workerTake : Option Manager :=
  if s.chanMapLocked then none
  else match s.worker with
  | .popped chanId =>
      let (entry, chanMap) := s.chanMap.subscript chanId
      match entry with
      | some lChannel => some { s with
          chanMap := chanMap.erase chanId, live := s.live.erase chanId
          worker := .taken chanId lChannel }
      | none => some { s with chanMap := chanMap, worker := .idle }
  | _ => none

/-- `kill(pid, SIGTERM)`; the pid -1 stands for every process. -/
def kill (pid : Int) : Manager :=
  { s with children := fun q => (s.children q).map fun child =>
      if (pid = -1 ∨ pid = q) ∧ ¬ child.reaped then { child with signals := child.signals + 1 }
      else child }

def workerKill : Option Manager :=
  match s.worker with
  | .taken chanId lChannel =>
      match s.heap lChannel with
      | some c => some { s.kill c.pid with worker := .killed chanId lChannel }
      | none => none
  | _ => none

/-- `waitpid(pid, nullptr, 0)` returning `ret`: it fails, or it reaps an unreaped child that `pid`
stands for. -/
def waitpid (pid ret : Int) : Option Manager :=
  if ret = -1 then some s
  else match s.children ret with
  | some child =>
      if child.reaped = false ∧ (pid = -1 ∨ pid = ret) then
        some (s.setChild ret { child with reaped := true })
      else none
  | none => none

def workerWait (ret : Int) : Option Manager :=
  match s.worker with
  | .killed chanId lChannel =>
      match s.heap lChannel with
      | some c =>
          match s.waitpid c.pid ret with
          | some s =>
              if ret = c.pid then some { s with worker := .waited chanId lChannel }
              else some { s with worker := .idle }
          | none => none
      | none => none
  | _ => none

def workerUnlink : Option Manager :=
  match s.worker with
  | .waited chanId lChannel =>
      match s.heap lChannel with
      | some _ => some { s with worker := .unlinked chanId lChannel }
      | none => none
  | _ => none

def workerDelete : Option Manager :=
  match s.worker with
  | .unlinked _ lChannel => some ({ s with worker := .idle }.setHeap lChannel none)
  | _ => none

def codecLookup (t : Nat) (channel : String) (rate : Int) (resolution : String)
    (maxBitrate : Int) : Option Manager :=
  match s.threads t with
  | .idle =>
      let (entry, chanMap) := s.chanMap.subscript channel
      let s := { s with chanMap := chanMap }
      match entry with
      | some ch =>
          let lRes := Resolution.ofString resolution
          some (s.setThread t (.codecFound ch ⟨lRes.mHeight, lRes.mWidth, rate, maxBitrate⟩))
      | none => some s
  | _ => none

/-- `OnceWrite` through a `Channel`, which may have been deleted. -/
def writeCommand (p : Ptr) (lCodecpara : CodecParam) : Manager :=
  match s.heap p with
  | some c => { s with commands := s.commands ++ [(c.fifoName, lCodecpara)] }
  | none => s

/-- An update of the media parameters of a `Channel`, which may have been deleted. -/
def updateParam (p : Ptr) (update : ChanMediaParam → ChanMediaParam) : Manager :=
  match s.heap p with
  | some c => s.setHeap p (some { c with mCMediaParam := update c.mCMediaParam })
  | none => s

def codecWrite (t : Nat) : Option Manager :=
  match s.threads t with
  | .codecFound ch lCodecpara =>
      some ((s.writeCommand ch lCodecpara).setThread t (.codecWritten ch lCodecpara))
  | _ => none

def codecUpdate (t : Nat) : Option Manager :=
  match s.threads t with
  | .codecWritten ch lCodecpara =>
      let s := s.updateParam ch fun m =>
        { mRes := { m.mRes with mHeight := lCodecpara.height, mWidth := lCodecpara.width }
          fps := lCodecpara.rate
          maxBitrate := lCodecpara.maxBitrate }
      some (s.setThread t .idle)
  | _ => none

/-- The lookup of `mediaPreset`. For an unknown channel it returns with the mutex held. -/
def presetLookup (t : Nat) (chan : String) (param : ChanMediaParam) : Option Manager :=
  match s.threads t with
  | .idle =>
      if chan = "" then some s
      else if s.chanMapLocked then none
      else
        let (entry, chanMap) := s.chanMap.subscript chan
        let s := { s with chanMap := chanMap }
        match entry with
        | some lChannel => some (s.setThread t (.presetFound lChannel param))
        | none => some { s with chanMapLocked := true }
  | _ => none

def presetWrite (t : Nat) : Option Manager :=
  match s.threads t with
  | .presetFound lChannel param =>
      let lCodecpara : CodecParam :=
        ⟨param.mRes.mHeight, param.mRes.mWidth, param.fps, param.maxBitrate⟩
      some ((s.writeCommand lChannel lCodecpara).setThread t (.presetWritten lChannel param))
  | _ => none

def presetUpdate (t : Nat) : Option Manager :=
  match s.threads t with
  | .presetWritten lChannel param =>
      some ((s.updateParam lChannel fun _ => param).setThread t .idle)
  | _ => none

structure ChannelInfo where
  chanID : String
  chanPID : Int
  height : Int
  width : Int
  fps : Int
deriving DecidableEq, Repr

structure ChannelsInfo where
  total : Nat
  chanInfo : List ChannelInfo
deriving DecidableEq, Repr

/-- The description of the entry at `key`; a null or deleted `Channel` cannot be read. -/
def channelInfo (key : String) : Option ChannelInfo := do
  let entry ← s.chanMap.lookup key
  let chan ← entry
  let c ← s.heap chan
  pure ⟨c.chanName, c.pid, c.mCMediaParam.mRes.mHeight, c.mCMediaParam.mRes.mWidth,
    c.mCMediaParam.fps⟩

/-- `channelsInfo2Json`, with the entries in the order of their keys. -/
def channelsInfo2Json : Option ChannelsInfo := do
  let chanInfo ← (s.chanMap.keys.sort (· ≤ ·)).mapM s.channelInfo
  pure ⟨s.chanMap.keys.card, chanInfo⟩

end Manager

/-- `made` is whether `mkfifo` works or finds the node there; the manager goes on either way. -/
inductive Event where
  | createCheck (t : Nat) (channel : String) (param : ChanMediaParam)
  | createFork (t : Nat) (fpid : Int)
  | createBuild (t : Nat) (made : Bool)
  | createInsert (t : Nat)
  | childFifo (pid : Int) (made : Bool)
  | delChannel (channle : String)
  | workerPop
  | workerTake
  | workerKill
  | workerWait (ret : Int)
  | workerUnlink
  | workerDelete
  | codecLookup (t : Nat) (channel : String) (rate : Int) (resolution : String) (maxBitrate : Int)
  | codecWrite (t : Nat)
  | codecUpdate (t : Nat)
  | presetLookup (t : Nat) (chan : String) (param : ChanMediaParam)
  | presetWrite (t : Nat)
  | presetUpdate (t : Nat)

def step (s : Manager) : Event → Option Manager
  | .createCheck t channel param => s.createCheck t channel param
  | .createFork t fpid => s.createFork t fpid
  | .createBuild t _ => s.createBuild t
  | .createInsert t => s.createInsert t
  | .childFifo pid _ => s.childFifo pid
  | .delChannel channle => s.delChannel channle
  | .workerPop => s.workerPop
  | .workerTake => s.workerTake
  | .workerKill => s.workerKill
  | .workerWait ret => s.workerWait ret
  | .workerUnlink => s.workerUnlink
  | .workerDelete => s.workerDelete
  | .codecLookup t channel rate resolution maxBitrate =>
      s.codecLookup t channel rate resolution maxBitrate
  | .codecWrite t => s.codecWrite t
  | .codecUpdate t => s.codecUpdate t
  | .presetLookup t chan param => s.presetLookup t chan param
  | .presetWrite t => s.presetWrite t
  | .presetUpdate t => s.presetUpdate t

/-- A call of `createChannel` that no other thread interrupts. -/
def createEvents (t : Nat) (channel : String) (param : ChanMediaParam) (fpid : Int) (made : Bool) :
    List Event :=
  [.createCheck t channel param, .createFork t fpid, .createBuild t made, .createInsert t]

def creation (channel : String) (fpid : Int) : List Event := createEvents 0 channel {} fpid true

/-- The steps of the worker for a request up to `waitpid`, and those of a removal to its end. -/
def waiting (ret : Int) : List Event := [.workerPop, .workerTake, .workerKill, .workerWait ret]

def removal (ret : Int) : List Event := waiting ret ++ [.workerUnlink, .workerDelete]

end GMProxy.TdChannel
