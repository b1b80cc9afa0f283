import Gwenhywfar.Base.Error
import Gwenhywfar.Msgio.Msg

/-! # Message endpoints

`GWEN_MSG_ENDPOINT` with the extensions `GWEN_ENDPOINT_MSGIO` for streams of messages and
`GWEN_ENDPOINT_TCPC` for TCP clients.  What a socket does is an argument of the functions that use
it.

* `Endpoint.writeCurrentMessage` tells what it did as a list of `SendEvent`.
* `Endpoint.distributeBufferContent` has no outcome when its loop does not end or when it leaves
  the block of a message.
* `Endpoint.addSockets` and `Endpoint.checkSockets` make the connections and use them. -/

namespace Gwenhywfar

/-- `GWEN_MSG_ENDPOINT_STATE_UNCONNECTED` and so on. -/
inductive EndpointState where
  | unconnected
  | connecting
  | connected
deriving DecidableEq, Repr

/-- `GWEN_MSG_ENDPOINT`; of the socket only whether there is one. -/
structure Endpoint where
  groupId : ℤ
  state : EndpointState
  socket : Bool
  receivedMessageList : List Msg
  sendMessageList : List Msg
  currentlyReceivedMsg : Option Msg
  defaultMessageSize : ℕ
deriving DecidableEq, Repr

/-- `GWEN_ENDPOINT_MSGIO`; of the functions around the sending of a message only whether they are
set. -/
structure MsgIoEndpoint where
  getBytesNeededFn : Option (Msg → ℤ)
  sendMsgStartFn : Bool
  sendMsgFinishFn : Bool

/-- What `GWEN_MsgEndpoint_WriteToSocket` does: the socket accepts so many bytes, or there is the
error `-(rv + 1)`. -/
inductive SocketWrite where
  | accepted (n : ℕ)
  | failed (rv : ℕ)
deriving DecidableEq, Repr

/-- What `GWEN_MsgEndpoint_ReadFromSocket` does: it has these bytes (none at the end of the
stream), or there is the error `-(rv + 1)`. -/
inductive SocketRead where
  | data (bytes : List UInt8)
  | failed (rv : ℕ)
deriving DecidableEq, Repr

/-- What can be seen from outside while messages are sent: the start function is called for a
message whose position is `pos`, the socket accepts bytes, a message leaves the queue. -/
inductive SendEvent where
  | start (pos : ℕ)
  | accept (bytes : List UInt8)
  | leave (msg : Msg)
deriving DecidableEq, Repr

namespace Endpoint

/-- `GWEN_MsgEndpoint_new`. -/
def new (groupId : ℤ) : Endpoint := ⟨groupId, .unconnected, false, [], [], none, 1024⟩

/-- `GWEN_MsgEndpoint_AddReceivedMessage`. -/
def addReceivedMessage (ep : Endpoint) (m : Msg) : Endpoint :=
  { ep with receivedMessageList := ep.receivedMessageList ++ [m.rewindCurrentPos] }

/-- `GWEN_MsgEndpoint_AddSendMessage`. -/
def addSendMessage (ep : Endpoint) (m : Msg) : Endpoint :=
  { ep with sendMessageList := ep.sendMessageList ++ [m.rewindCurrentPos] }

/-- `GWEN_MsgEndpoint_Disconnect`. -/
def disconnect (ep : Endpoint) : Endpoint := { ep with socket := false, state := .unconnected }

/-! ### Sending -/

/-- `_sendMsgFinish`: it looks for the start function before it calls the finish function. -/
def sendMsgFinish (xep : MsgIoEndpoint) : Option Unit :=
  if xep.sendMsgStartFn && !xep.sendMsgFinishFn then none else some ()

/-- `_writeCurrentMessage`, where the start function returns `startRv`. -/
def writeCurrentMessage (xep : MsgIoEndpoint) (ep : Endpoint) (startRv : ℤ) (res : SocketWrite) :
    Option (ℤ × Endpoint × List SendEvent) :=
  match ep.sendMessageList with
  | [] => some (0, ep, [])
  | msg :: rest =>
      -- the position is stored in an uint8_t
      let pos := msg.currentPos % 2 ^ 8
      let remaining := msg.getRemainingBytes
      let starts := decide (pos = 0 ∧ 0 < remaining) && xep.sendMsgStartFn
      let events := if starts then [SendEvent.start msg.currentPos] else []
      if starts ∧ startRv < 0 then some (startRv, ep, events)
      else if 0 < remaining then
        (Block.load msg.buffer pos remaining.toNat).bind fun buf =>
          match res with
          | .failed rv => some (-(rv + 1), ep, events)
          | .accepted n =>
              let n := min n remaining.toNat
              let msg := msg.incCurrentPos n
              if n = remaining.toNat then
                (sendMsgFinish xep).map fun _ =>
                  (0, { ep with sendMessageList := rest },
                    events ++ [.accept (buf.take n), .leave msg])
              else
                some (0, { ep with sendMessageList := msg :: rest },
                  events ++ [.accept (buf.take n)])
      else some (0, ep, events)

/-! ### Receiving -/

/-- `_getBytesNeededForMessage` of an IPC endpoint. -/
def getBytesNeededForMessage (msg : Msg) : ℤ :=
  if msg.bytesInBuffer < msgIpcOffsPayload then (msgIpcOffsPayload - msg.bytesInBuffer : ℕ)
  else intOfDiff32 (ipcMsgGetMsgSize msg) msg.bytesInBuffer

/-- A stream endpoint after `GWEN_IpcEndpoint_Extend`. -/
def ipcEndpoint (sendMsgStartFn sendMsgFinishFn : Bool) : MsgIoEndpoint :=
  ⟨some getBytesNeededForMessage, sendMsgStartFn, sendMsgFinishFn⟩

/-- What is known after a round of the loop in `_distributeBufferContent`. -/
inductive Round where
  | next (ep : Endpoint) (buffer : List UInt8)
  | done (rv : ℤ) (ep : Endpoint)

/-- The message that `_distributeBufferContent` adds bytes to, a new one if there is none. -/
def currentMsg (ep : Endpoint) : Msg :=
  match ep.currentlyReceivedMsg with
  | some msg => msg
  | none => (Msg.new ep.defaultMessageSize).setGroupId ep.groupId

/-- One round of the loop in `_distributeBufferContent`.  The message that the loop works on is
the one that the endpoint currently receives. -/
def distributeRound (getBytesNeeded : Msg → ℤ) (ep : Endpoint) (buffer : List UInt8) :
    Option Round :=
  let msg := ep.currentMsg
  let ep := { ep with currentlyReceivedMsg := some msg }
  let bytesNeeded := getBytesNeeded msg
  if bytesNeeded = 0 then some (.next ep buffer)
  else if bytesNeeded < 0 then some (.done errorIo ep)
  else
    let n := min bytesNeeded.toNat buffer.length
    (msg.addBytes (buffer.take n)).map fun msg =>
      if getBytesNeeded msg = 0 then
        .next (addReceivedMessage { ep with currentlyReceivedMsg := none } msg) (buffer.drop n)
      else .next { ep with currentlyReceivedMsg := some msg } (buffer.drop n)

/-- The loop in `_distributeBufferContent`, in at most `k` rounds. -/
def distributeLoop (getBytesNeeded : Msg → ℤ) :
    (k : ℕ) → Endpoint → List UInt8 → Option (ℤ × Endpoint)
  | _, ep, [] => some (0, ep)
  | 0, _, _ :: _ => none
  | k + 1, ep, b :: bs =>
      match distributeRound getBytesNeeded ep (b :: bs) with
      | none => none
      | some (.done rv ep) => some (rv, ep)
      | some (.next ep buffer) => distributeLoop getBytesNeeded k ep buffer

/-- `_distributeBufferContent`.  A round that neither returns nor takes a byte from the buffer is
repeated for ever, so that the loop ends within as many rounds as there are bytes or not at all. -/
def distributeBufferContent (xep : MsgIoEndpoint) (ep : Endpoint) (buffer : List UInt8) :
    Option (ℤ × Endpoint) :=
  match xep.getBytesNeededFn with
  | none => some (errorGeneric, ep)
  | some f => distributeLoop f buffer.length ep buffer

/-- `_readCurrentMessage`. -/
def readCurrentMessage (xep : MsgIoEndpoint) (ep : Endpoint) :
    SocketRead → Option (ℤ × Endpoint)
  | .failed rv => some (-(rv + 1), ep)
  | .data [] => some (errorIo, ep)
  | .data (b :: bs) => distributeBufferContent xep ep (b :: bs)

/-! ### Connecting -/

/-- `GWEN_TcpcEndpoint_StartConnect`, where `GWEN_Socket_Connect` returns `rv`. -/
def startConnect (ep : Endpoint) (rv : ℤ) : Endpoint :=
  if ep.state = .unconnected then
    if rv = errorInProgress then { ep with socket := true, state := .connecting }
    else if rv = 0 then { ep with socket := true, state := .connected }
    else ep
  else ep

/-- `_addSockets`, as far as it changes the endpoint: an endpoint without connection connects
when the time since its last change of state is `due`. -/
def addSockets (ep : Endpoint) (due : Bool) (rv : ℤ) : Endpoint :=
  if ep.state = .unconnected ∧ due then startConnect ep rv else ep

/-- `_checkSockets` of a TCP client: the socket in the write set has the error `rv`. -/
def checkConnecting (ep : Endpoint) (rv : ℤ) : Endpoint :=
  if ep.socket ∧ ep.state = .connecting ∧ rv = 0 then { ep with state := .connected } else ep

/-- The result of a read or a write makes `_checkSockets` disconnect. -/
def isFatal (rv : ℤ) : Bool := decide (rv < 0 ∧ rv ≠ errorTimeout)

/-- What a call of `_checkSockets` does: whether it calls `GWEN_MsgEndpoint_Disconnect`, the
endpoint up to this call, what could be seen while a message was sent, and the bytes that have
been read. -/
structure IoResult where
  disconnects : Bool
  before : Endpoint
  events : List SendEvent
  bytes : List UInt8

def IoResult.after (r : IoResult) : Endpoint :=
  if r.disconnects then r.before.disconnect else r.before

/-- The part of `_checkSockets` that writes, when the socket is in the write set. -/
def checkWritable (xep : MsgIoEndpoint) (ep : Endpoint) :
    Option (ℤ × SocketWrite) → Option (ℤ × Endpoint × List SendEvent)
  | none => some (0, ep, [])
  | some (startRv, res) => ep.writeCurrentMessage xep startRv res

/-- The part of `_checkSockets` that reads, when the socket is in the read set. -/
def checkReadable (xep : MsgIoEndpoint) (ep : Endpoint) :
    Option SocketRead → Option (ℤ × Endpoint)
  | none => some (0, ep)
  | some res => readCurrentMessage xep ep res

def bytesOf : Option SocketRead → List UInt8
  | some (.data bytes) => bytes
  | _ => []

/-- `_checkSockets` of a TCP client that has been extended to a stream endpoint.  `writable` and
`readable` tell what the socket does when it is in the write set and in the read set, and
`connectRv` is its error while it is connecting. -/
def checkSockets (xep : MsgIoEndpoint) (ep : Endpoint) (connectRv : ℤ)
    (writable : Option (ℤ × SocketWrite)) (readable : Option SocketRead) : Option IoResult :=
  if ep.state = .connected then
    if ep.socket then
      (checkWritable xep ep writable).bind fun (rv, ep, events) =>
        if isFatal rv then some ⟨true, ep, events, []⟩
        else (checkReadable xep ep readable).map fun (rv, ep) =>
          ⟨isFatal rv, ep, events, bytesOf readable⟩
    else some ⟨false, ep, [], []⟩
  else some ⟨false, if writable.isSome then checkConnecting ep connectRv else ep, [], []⟩

/-- `GWEN_MsgEndpoint_TakeFirstReceivedMessage`. -/
def takeFirstReceivedMessage (ep : Endpoint) : Endpoint :=
  { ep with receivedMessageList := ep.receivedMessageList.tail }

end Endpoint
end Gwenhywfar
