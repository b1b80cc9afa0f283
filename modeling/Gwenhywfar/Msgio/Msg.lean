import Gwenhywfar.Base.Uint32
import Gwenhywfar.Lib.Block
import Mathlib.Data.List.TakeDrop

/-! # `GWEN_MSG` and the messages of the IPC protocol

A message is a block of memory with the number of bytes in it and a position.  The counters are
`uint32_t`, so their sums are taken modulo `2 ^ 32`.  Memory is taken to be available; the model
has zeros where the C library leaves the bytes of a new block indeterminate.

* `Msg.Holds`: the bytes that a message holds while it is filled.
* `Msg.addBytes_holds`: adding bytes appends to them, and grows the block where needed.
* `ipcMsgNew_holds`: the wire format of an IPC message. -/

namespace Gwenhywfar

/-- `GWEN_MSG`, without the results of parsing. -/
structure Msg where
  bytesInBuffer : ℕ
  currentPos : ℕ
  maxSize : ℕ
  buffer : List UInt8
  groupId : ℤ
deriving DecidableEq, Repr

namespace Msg

/-- `GWEN_MSG_SIZE_STEP`. -/
def sizeStep : ℕ := 4096

/-- `GWEN_Msg_new`. -/
def new (bufferSize : ℕ) : Msg := ⟨0, 0, bufferSize, List.replicate bufferSize 0, 0⟩

/-- `GWEN_Msg_SetGroupId`. -/
def setGroupId (msg : Msg) (groupId : ℤ) : Msg := { msg with groupId := groupId }

/-- `_ensureWritePos`, with the mask `GWEN_MSG_SIZE_MASK` written as a division. -/
def ensureWritePos (msg : Msg) (newPos : ℕ) : Option Msg :=
  if msg.maxSize ≤ newPos then
    let newSize := add32 newPos sizeStep / 4096 * 4096
    -- the bytes behind the position are cleared, as many as there are new ones
    (Block.store (Block.resize msg.buffer newSize 0) msg.currentPos
      (List.replicate (newSize - msg.maxSize) 0)).map fun buffer =>
        { msg with buffer := buffer, maxSize := newSize }
  else some msg

/-- `GWEN_Msg_AddBytes`. -/
def addBytes (msg : Msg) (bytes : List UInt8) : Option Msg := do
  let msg ← msg.ensureWritePos (add32 msg.currentPos bytes.length)
  let buffer ← Block.store msg.buffer msg.currentPos bytes
  some { msg with
    buffer := buffer
    currentPos := add32 msg.currentPos bytes.length
    bytesInBuffer := add32 msg.bytesInBuffer bytes.length }

/-- `GWEN_Msg_WriteUint8At`, `GWEN_Msg_WriteUint16At` and `GWEN_Msg_WriteUint32At`, for the bytes
of the number. -/
def writeAt (msg : Msg) (pos : ℕ) (bytes : List UInt8) : Option Msg := do
  let msg ← msg.ensureWritePos (add32 pos bytes.length)
  let buffer ← Block.store msg.buffer pos bytes
  some { msg with buffer := buffer }

def littleEndian : (k : ℕ) → ℕ → List UInt8
  | 0, _ => []
  | k + 1, v => UInt8.ofNat v :: littleEndian k (v / 256)

def ofLittleEndian : List UInt8 → ℕ
  | [] => 0
  | b :: bs => b.toNat + 256 * ofLittleEndian bs

/-- `GWEN_Msg_AddUint8`, `GWEN_Msg_AddUint16` and `GWEN_Msg_AddUint32`, for `k` bytes. -/
def addUint (k : ℕ) (msg : Msg) (v : ℕ) : Option Msg := do
  let msg ← msg.writeAt msg.currentPos (littleEndian k v)
  some { msg with
    currentPos := add32 msg.currentPos k
    bytesInBuffer := add32 msg.bytesInBuffer k }

/-- `GWEN_Msg_AddUint8`. -/
def addUint8 (msg : Msg) (v : UInt8) : Option Msg := addUint 1 msg v.toNat

/-- `GWEN_Msg_AddUint16`. -/
def addUint16 (msg : Msg) (v : UInt16) : Option Msg := addUint 2 msg v.toNat

/-- `GWEN_Msg_AddUint32`. -/
def addUint32 (msg : Msg) (v : UInt32) : Option Msg := addUint 4 msg v.toNat

/-- `GWEN_Msg_GetUint32At`. -/
def getUint32At (msg : Msg) (offs defaultValue : ℕ) : ℕ :=
  if offs + 4 ≤ msg.bytesInBuffer then ofLittleEndian ((msg.buffer.drop offs).take 4)
  else defaultValue

/-- `GWEN_Msg_IncCurrentPos`; the position stays where it is when it would leave the message. -/
def incCurrentPos (msg : Msg) (i : ℕ) : Msg :=
  if add32 msg.currentPos i ≤ msg.maxSize ∧ add32 msg.currentPos i ≤ msg.bytesInBuffer then
    { msg with currentPos := add32 msg.currentPos i }
  else msg

/-- `GWEN_Msg_RewindCurrentPos`. -/
def rewindCurrentPos (msg : Msg) : Msg := { msg with currentPos := 0 }

/-- `GWEN_Msg_GetRemainingBytes`. -/
def getRemainingBytes (msg : Msg) : ℤ := intOfDiff32 msg.bytesInBuffer msg.currentPos

def bytes (msg : Msg) : List UInt8 := msg.buffer.take msg.bytesInBuffer

/-! ### Filling a message -/

/-- The message has been filled with these bytes, and its position is behind them. -/
structure Holds (msg : Msg) (p : List UInt8) : Prop where
  count : msg.bytesInBuffer = p.length
  pos : msg.currentPos = p.length
  size : msg.buffer.length = msg.maxSize
  fits : p.length ≤ msg.maxSize
  cells : msg.bytes = p

theorem new_holds (n : ℕ) : (new n).Holds [] where
  count := rfl
  pos := rfl
  size := List.length_replicate
  fits := Nat.zero_le n
  cells := rfl

theorem bytes_eq {msg : Msg} {p : List UInt8} (h : msg.Holds p) : msg.buffer.take p.length = p := by
  rw [← h.count]
  exact h.cells

/-- A block that grows keeps the bytes before the position. -/
theorem ensureWritePos_holds {msg : Msg} {p : List UInt8} (h : msg.Holds p) {newPos : ℕ}
    (hle : p.length ≤ newPos) (hlt : newPos + 4096 < 2 ^ 32) :
    ∃ msg', msg.ensureWritePos newPos = some msg' ∧ msg'.Holds p ∧ newPos ≤ msg'.maxSize ∧
      msg'.groupId = msg.groupId := by
  have hsize := h.size
  have hfits := h.fits
  by_cases hgrow : msg.maxSize ≤ newPos
  · have hnew : newPos < (newPos + 4096) / 4096 * 4096 := by omega
    simp only [ensureWritePos, if_pos hgrow, sizeStep, add32_of_lt hlt, h.pos]
    generalize (newPos + 4096) / 4096 * 4096 = newSize at hnew
    have hlen := Block.length_resize msg.buffer newSize (0 : UInt8)
    obtain ⟨b, hb, hblen, hbget⟩ := @Block.store_of_le _ (Block.resize msg.buffer newSize 0)
      (List.replicate (newSize - msg.maxSize) 0) p.length (by rw [List.length_replicate]; omega)
    refine ⟨{ msg with buffer := b, maxSize := newSize, currentPos := p.length }, by rw [hb]; rfl,
      ⟨h.count, rfl, hblen.trans hlen, by dsimp only; omega, ?_⟩, by dsimp only; omega, rfl⟩
    simp only [Msg.bytes, h.count]
    conv_rhs => rw [← bytes_eq h]
    refine List.ext_getElem? fun j => ?_
    rw [List.getElem?_take, List.getElem?_take]
    split
    · rw [hbget, if_neg (by omega), Block.getElem?_resize _ (by omega) (by omega)]
    · rfl
  · rw [ensureWritePos, if_neg hgrow]
    exact ⟨msg, rfl, h, by omega, rfl⟩

theorem store_holds {msg : Msg} {p bs : List UInt8} (h : msg.Holds p)
    (hroom : p.length + bs.length ≤ msg.maxSize) :
    ∃ buffer, Block.store msg.buffer p.length bs = some buffer ∧
      buffer.length = msg.maxSize ∧ buffer.take (p.length + bs.length) = p ++ bs := by
  have hsize := h.size
  refine ⟨_, if_pos (by omega), ?_, ?_⟩
  · simp only [List.length_append, List.length_take, List.length_drop]
    omega
  · rw [bytes_eq h]
    exact List.take_left' List.length_append

theorem addBytes_holds {msg : Msg} {p : List UInt8} (h : msg.Holds p) (bs : List UInt8)
    (hlt : p.length + bs.length + 4096 < 2 ^ 32) :
    ∃ msg', msg.addBytes bs = some msg' ∧ msg'.Holds (p ++ bs) ∧ msg'.groupId = msg.groupId := by
  obtain ⟨m, hm, hh, hroom, hg⟩ := ensureWritePos_holds h (Nat.le_add_right p.length bs.length) hlt
  obtain ⟨buffer, hb, hlen, htake⟩ := store_holds hh hroom
  have hadd : add32 p.length bs.length = p.length + bs.length := add32_of_lt (by omega)
  refine ⟨{ m with
      buffer := buffer
      currentPos := add32 m.currentPos bs.length
      bytesInBuffer := add32 m.bytesInBuffer bs.length }, ?_, ⟨?_, ?_, hlen, ?_, ?_⟩, hg⟩
  · simp only [addBytes, h.pos, hadd, hm, hh.pos, hb, Option.bind_eq_bind, Option.bind_some]
  · simp only [hh.count, hadd, List.length_append]
  · simp only [hh.pos, hadd, List.length_append]
  · rw [List.length_append]
    exact hroom
  · simp only [Msg.bytes, hh.count, hadd, htake]

theorem length_littleEndian : ∀ (k v : ℕ), (littleEndian k v).length = k
  | 0, _ => rfl
  | k + 1, v => congrArg (· + 1) (length_littleEndian k (v / 256))

theorem ofLittleEndian_littleEndian : ∀ (k v : ℕ), v < 256 ^ k →
    ofLittleEndian (littleEndian k v) = v
  | 0, v, h => by
      rw [Nat.pow_zero] at h
      rw [littleEndian, ofLittleEndian]
      omega
  | k + 1, v, h => by
      have hlt : v / 256 < 256 ^ k := Nat.div_lt_of_lt_mul (by rwa [Nat.pow_succ'] at h)
      rw [littleEndian, ofLittleEndian, ofLittleEndian_littleEndian k _ hlt, UInt8.toNat_ofNat']
      omega

theorem addUint_holds {msg : Msg} {p : List UInt8} (h : msg.Holds p) (k v : ℕ)
    (hlt : p.length + k + 4096 < 2 ^ 32) :
    ∃ msg', addUint k msg v = some msg' ∧ msg'.Holds (p ++ littleEndian k v) ∧
      msg'.groupId = msg.groupId := by
  have hk := length_littleEndian k v
  obtain ⟨m, hm, hh, hroom, hg⟩ := ensureWritePos_holds h (Nat.le_add_right p.length k) hlt
  rw [← hk] at hroom
  obtain ⟨buffer, hb, hlen, htake⟩ := store_holds hh hroom
  rw [hk] at hroom
  have hadd : add32 p.length k = p.length + k := add32_of_lt (by omega)
  refine ⟨{ m with
      buffer := buffer
      currentPos := add32 m.currentPos k
      bytesInBuffer := add32 m.bytesInBuffer k }, ?_, ⟨?_, ?_, hlen, ?_, ?_⟩, hg⟩
  · simp only [addUint, writeAt, h.pos, hk, hadd, hm, hh.pos, hb, Option.bind_eq_bind,
      Option.bind_some]
  · simp only [hh.count, hadd, List.length_append, hk]
  · simp only [hh.pos, hadd, List.length_append, hk]
  · rw [List.length_append, hk]
    exact hroom
  · rw [hk] at htake
    simp only [Msg.bytes, hh.count, hadd, htake]

end Msg

/-! ### IPC messages -/

/-- `GWEN_MSGIPC_OFFS_SIZE`. -/
def msgIpcOffsSize : ℕ := 0

/-- `GWEN_MSGIPC_OFFS_PAYLOAD`. -/
def msgIpcOffsPayload : ℕ := 16

/-- `GWEN_IpcMsg_new`, for the `payloadLen` bytes at `payload`. -/
def ipcMsgNew (protoId protoVer : UInt8) (code : UInt16) (msgId refMsgId : UInt32)
    (payload : List UInt8) : Option Msg := do
  let len := add32 msgIpcOffsPayload payload.length
  let msg := Msg.new len
  let msg ← Msg.addUint32 msg (UInt32.ofNat len)
  let msg ← Msg.addUint8 msg protoId
  let msg ← Msg.addUint8 msg protoVer
  let msg ← Msg.addUint16 msg code
  let msg ← Msg.addUint32 msg msgId
  let msg ← Msg.addUint32 msg refMsgId
  if payload = [] then some msg else Msg.addBytes msg payload

/-- `GWEN_IpcMsg_GetMsgSize`. -/
def ipcMsgGetMsgSize (msg : Msg) : ℕ := msg.getUint32At msgIpcOffsSize 0

def ipcWire (protoId protoVer : UInt8) (code : UInt16) (msgId refMsgId : UInt32)
    (payload : List UInt8) : List UInt8 :=
  Msg.littleEndian 4 (16 + payload.length) ++
    (Msg.littleEndian 1 protoId.toNat ++ (Msg.littleEndian 1 protoVer.toNat ++
      (Msg.littleEndian 2 code.toNat ++ (Msg.littleEndian 4 msgId.toNat ++
        (Msg.littleEndian 4 refMsgId.toNat ++ payload)))))

theorem ipcMsgNew_holds (protoId protoVer : UInt8) (code : UInt16) (msgId refMsgId : UInt32)
    {payload : List UInt8} (h : 16 + payload.length < 2 ^ 31) :
    ∃ msg, ipcMsgNew protoId protoVer code msgId refMsgId payload = some msg ∧
      msg.Holds (ipcWire protoId protoVer code msgId refMsgId payload) := by
  have hlen : add32 msgIpcOffsPayload payload.length = 16 + payload.length :=
    add32_of_lt (by rw [msgIpcOffsPayload]; omega)
  have hsize : (UInt32.ofNat (16 + payload.length)).toNat = 16 + payload.length :=
    UInt32.toNat_ofNat_of_lt' (Nat.lt_trans h (by decide))
  obtain ⟨m1, h1, hh1, -⟩ := Msg.addUint_holds (Msg.new_holds (16 + payload.length)) 4
    (16 + payload.length) (by simp)
  obtain ⟨m2, h2, hh2, -⟩ := Msg.addUint_holds hh1 1 protoId.toNat
    (by simp [Msg.length_littleEndian])
  obtain ⟨m3, h3, hh3, -⟩ := Msg.addUint_holds hh2 1 protoVer.toNat
    (by simp [Msg.length_littleEndian])
  obtain ⟨m4, h4, hh4, -⟩ := Msg.addUint_holds hh3 2 code.toNat
    (by simp [Msg.length_littleEndian])
  obtain ⟨m5, h5, hh5, -⟩ := Msg.addUint_holds hh4 4 msgId.toNat
    (by simp [Msg.length_littleEndian])
  obtain ⟨m6, h6, hh6, -⟩ := Msg.addUint_holds hh5 4 refMsgId.toNat
    (by simp [Msg.length_littleEndian])
  simp only [ipcMsgNew, hlen, Msg.addUint32, Msg.addUint16, Msg.addUint8, hsize, h1, h2, h3, h4,
    h5, h6, Option.bind_eq_bind, Option.bind_some]
  by_cases hp : payload = []
  · subst hp
    refine ⟨m6, if_pos rfl, ?_⟩
    simpa only [ipcWire, List.nil_append, List.append_assoc, List.append_nil] using hh6
  · obtain ⟨m7, h7, hh7, -⟩ := Msg.addBytes_holds hh6 payload
      (by simp only [List.length_append, Msg.length_littleEndian, List.length_nil]; omega)
    refine ⟨m7, by rw [if_neg hp, h7], ?_⟩
    simpa only [ipcWire, List.nil_append, List.append_assoc] using hh7

theorem length_ipcWire (protoId protoVer : UInt8) (code : UInt16) (msgId refMsgId : UInt32)
    (payload : List UInt8) :
    (ipcWire protoId protoVer code msgId refMsgId payload).length = 16 + payload.length := by
  simp only [ipcWire, List.length_append, Msg.length_littleEndian]
  omega

theorem size_ipcWire (protoId protoVer : UInt8) (code : UInt16) (msgId refMsgId : UInt32)
    {payload : List UInt8} (h : 16 + payload.length < 2 ^ 31) :
    Msg.ofLittleEndian ((ipcWire protoId protoVer code msgId refMsgId payload).take 4) =
      16 + payload.length := by
  rw [ipcWire, List.take_left' (Msg.length_littleEndian 4 _)]
  exact Msg.ofLittleEndian_littleEndian 4 _ (by omega)

end Gwenhywfar
