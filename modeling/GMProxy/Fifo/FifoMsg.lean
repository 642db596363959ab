import Mathlib.Tactic.Common

/-!
# The control FIFO

`FifoMsgSession` of `fifoMsg.cpp`. The FIFO is the list of bytes written and not yet read; a write
appends all its bytes at once, and a read takes as many bytes as there are, up to its size.
-/

namespace GMProxy.TdUtil

inductive FIFOCmdType where
  | modifyCodecParam
deriving DecidableEq, Repr

def FIFOCmdType.value : FIFOCmdType → UInt32
  | modifyCodecParam => 2

def sizeofContent : Nat := 1024
def sizeofFifoMsg : Nat := 1028
def sizeofBuff : Nat := 2048

structure FifoMsg where
  cmd : UInt32
  content : List UInt8
  content_length : content.length = sizeofContent
deriving DecidableEq, Repr

/-- The bytes of an `int`, low byte first. -/
def intBytes (x : UInt32) : List UInt8 :=
  [UInt8.ofNat x.toNat, UInt8.ofNat (x.toNat / 256), UInt8.ofNat (x.toNat / 65536),
    UInt8.ofNat (x.toNat / 16777216)]

def intOfBytes (bytes : List UInt8) : UInt32 :=
  UInt32.ofNat ((bytes.getD 0 0).toNat + 256 * (bytes.getD 1 0).toNat +
    65536 * (bytes.getD 2 0).toNat + 16777216 * (bytes.getD 3 0).toNat)

def FifoMsg.encode (msg : FifoMsg) : List UInt8 := intBytes msg.cmd ++ msg.content

/-- What `OnceWrite` is given: `size` bytes at `data`, which fit into `content`. -/
structure FifoData where
  bytes : List UInt8
  fits : bytes.length ≤ sizeofContent

/-- The message that `OnceWrite` builds. -/
def FifoMsg.make (cmd : FIFOCmdType) (data : FifoData) : FifoMsg where
  cmd := cmd.value
  content := data.bytes ++ (List.replicate sizeofContent 0).drop data.bytes.length
  content_length := by
    have hfits := data.fits
    rw [List.length_append, List.length_drop, List.length_replicate]
    omega

structure FifoMsgSession where
  mFifoName : String
  fd : Int
  buff : List UInt8
  nread : Nat
  isOpenW : Bool
  isOpenR : Bool
  buff_length : buff.length = sizeofBuff

/-- `read` into `buff`. -/
def FifoMsgSession.read (s : FifoMsgSession) (fifo : List UInt8) : FifoMsgSession × List UInt8 :=
  ({ s with
      buff := fifo.take sizeofBuff ++ s.buff.drop (fifo.take sizeofBuff).length
      nread := (fifo.take sizeofBuff).length
      buff_length := by
        have hlen := s.buff_length
        rw [List.length_append, List.length_drop, List.length_take]
        omega },
    fifo.drop sizeofBuff)

/-- `Wait`; `opened` is what `open` returns if it is called. The results are the session, what is
left in the FIFO and the return value. -/
def FifoMsgSession.wait (s : FifoMsgSession) (opened : Int) (fifo : List UInt8) :
    FifoMsgSession × List UInt8 × Int :=
  if s.mFifoName = "" then (s, fifo, -1)
  else
    let fd := if s.isOpenR then s.fd else opened
    if ¬ s.isOpenR ∧ fd = -1 then ({ s with fd := fd }, fifo, -1)
    else
      let (s, fifo) := { s with fd := fd, isOpenR := true }.read fifo
      (s, fifo, if s.nread = sizeofFifoMsg then 0 else -1)

def FifoMsgSession.onceWrite (s : FifoMsgSession) (opened : Int) (fifo : List UInt8)
    (cmd : FIFOCmdType) (data : FifoData) : FifoMsgSession × List UInt8 × Int :=
  let msg := FifoMsg.make cmd data
  let fd := if s.isOpenW then s.fd else opened
  if ¬ s.isOpenW ∧ fd = -1 then ({ s with fd := fd }, fifo, -1)
  else ({ s with fd := fd, isOpenW := true }, fifo ++ msg.encode, 0)

/-- `GetFifoMsg`: the buffer read as a message. -/
def FifoMsgSession.getFifoMsg (s : FifoMsgSession) : FifoMsg where
  cmd := intOfBytes s.buff
  content := (s.buff.drop 4).take sizeofContent
  content_length := by
    have hlen := s.buff_length
    simp only [sizeofBuff] at hlen
    rw [List.length_take, List.length_drop, hlen, sizeofContent]
    rfl

theorem FifoMsg.encode_length (msg : FifoMsg) : msg.encode.length = sizeofFifoMsg := by
  rw [FifoMsg.encode, List.length_append, msg.content_length]
  rfl

theorem FifoMsg.encode_ne_nil (msg : FifoMsg) : msg.encode ≠ [] := by
  intro hnil
  have hlen := msg.encode_length
  rw [hnil] at hlen
  exact absurd hlen (by decide)

private theorem intOfBytes_append (x : UInt32) (rest : List UInt8) :
    intOfBytes (intBytes x ++ rest) = x := by
  have hx := x.toNat_lt
  apply UInt32.toNat_inj.mp
  simp only [intOfBytes, intBytes, List.cons_append, List.getD_cons_zero, List.getD_cons_succ,
    UInt32.toNat_ofNat', UInt8.toNat_ofNat']
  omega

/-- A read that takes exactly one message gives this message. -/
theorem FifoMsgSession.read_encode (s : FifoMsgSession) (msg : FifoMsg) :
    (s.read msg.encode).1.getFifoMsg = msg ∧ (s.read msg.encode).2 = [] ∧
      (s.read msg.encode).1.nread = sizeofFifoMsg := by
  have hall : msg.encode.take sizeofBuff = msg.encode :=
    List.take_of_length_le (by rw [msg.encode_length]; decide)
  refine ⟨?_, ?_, ?_⟩
  · obtain ⟨cmd, content, hcontent⟩ := msg
    simp only [getFifoMsg, read, hall, FifoMsg.mk.injEq]
    rw [FifoMsg.encode, List.append_assoc]
    refine ⟨intOfBytes_append _ _, ?_⟩
    have hdrop : (intBytes cmd ++ (content ++ s.buff.drop (intBytes cmd ++ content).length)).drop 4 =
        content ++ s.buff.drop (intBytes cmd ++ content).length :=
      List.drop_left' rfl
    rw [hdrop, List.take_left' hcontent]
  · exact List.drop_eq_nil_of_le (by rw [msg.encode_length]; decide)
  · exact (congrArg List.length hall).trans msg.encode_length

end GMProxy.TdUtil
