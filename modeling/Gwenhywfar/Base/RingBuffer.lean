import Gwenhywfar.Base.Uint32
import Gwenhywfar.Lib.Block

/-! # `GWEN_RINGBUFFER`

A block of memory that is written at one position and read at another; both go around.  An access
outside of the block and a failed assertion have no outcome. -/

namespace Gwenhywfar

/-- `GWEN_RINGBUFFER`. -/
structure RingBuffer where
  ptr : List UInt8
  bufferSize : ℕ
  readPos : ℕ
  writePos : ℕ
  bytesUsed : ℕ
  maxBytesUsed : ℕ
  emptyCounter : ℕ
  fullCounter : ℕ
  throughput : ℕ
deriving DecidableEq, Repr

namespace RingBuffer

/-- `GWEN_RingBuffer_new`; the bytes of the new block are not read before they are written. -/
def new (size : ℕ) : Option RingBuffer :=
  if size = 0 then none else some ⟨List.replicate size 0, size, 0, 0, 0, 0, 0, 0, 0⟩

/-- The position behind `psize` bytes from `pos` on, which goes around at the end of the block. -/
def advance (rb : RingBuffer) (pos psize : ℕ) : ℕ :=
  let pos := add32 pos psize
  if rb.bufferSize ≤ pos then 0 else pos

/-- The bytes that can be written without going around. -/
def unsegmentedWrite (rb : RingBuffer) : ℕ :=
  if rb.readPos ≤ rb.writePos then rb.bufferSize - rb.writePos else rb.readPos - rb.writePos

/-- The bytes that can be read without going around. -/
def unsegmentedRead (rb : RingBuffer) : ℕ :=
  if rb.writePos ≤ rb.readPos then rb.bufferSize - rb.readPos else rb.writePos - rb.readPos

/-- The loop of `GWEN_RingBuffer_WriteBytes`, in at most `k` rounds; the bytes that are left. -/
def writeLoop : (k : ℕ) → RingBuffer → List UInt8 → Option (List UInt8 × RingBuffer)
  | _, rb, [] => some ([], rb)
  | 0, _, _ :: _ => none
  | k + 1, rb, b :: bs =>
      if rb.bufferSize - rb.bytesUsed = 0 then some (b :: bs, rb)
      else
        let psize := min rb.unsegmentedWrite (b :: bs).length
        (Block.store rb.ptr rb.writePos ((b :: bs).take psize)).bind fun ptr =>
          writeLoop k
            { rb with
              ptr := ptr
              writePos := rb.advance rb.writePos psize
              bytesUsed := add32 rb.bytesUsed psize }
            ((b :: bs).drop psize)

/-- `GWEN_RingBuffer_WriteBytes`: the result, and how many bytes have been written. -/
def writeBytes (rb : RingBuffer) (buffer : List UInt8) : Option (ℤ × ℕ × RingBuffer) :=
  if rb.bufferSize - rb.bytesUsed = 0 then
    some (-1, 0, { rb with fullCounter := add32 rb.fullCounter 1 })
  else
    (writeLoop buffer.length rb buffer).map fun (left, rb) =>
      (0, buffer.length - left.length, { rb with maxBytesUsed := max rb.maxBytesUsed rb.bytesUsed })

/-- The loop of `GWEN_RingBuffer_ReadBytes`, in at most `k` rounds; the bytes that are read. -/
def readLoop : (k : ℕ) → RingBuffer → (bytesLeft : ℕ) → Option (List UInt8 × RingBuffer)
  | _, rb, 0 => some ([], rb)
  | 0, _, _ + 1 => none
  | k + 1, rb, n + 1 =>
      if rb.bytesUsed = 0 then some ([], rb)
      else
        let psize := min rb.unsegmentedRead (n + 1)
        (Block.load rb.ptr rb.readPos psize).bind fun bytes =>
          (readLoop k
            { rb with
              readPos := rb.advance rb.readPos psize
              bytesUsed := rb.bytesUsed - psize }
            (n + 1 - psize)).map fun (rest, rb) => (bytes ++ rest, rb)

/-- `GWEN_RingBuffer_ReadBytes`: the result, and the bytes that have been read. -/
def readBytes (rb : RingBuffer) (size : ℕ) : Option (ℤ × List UInt8 × RingBuffer) :=
  if rb.bytesUsed = 0 then
    some (-1, [], { rb with emptyCounter := add32 rb.emptyCounter 1 })
  else
    (readLoop size rb size).map fun (bytes, rb) =>
      (0, bytes, { rb with throughput := add32 rb.throughput bytes.length })

/-- `GWEN_RingBuffer_GetMaxUnsegmentedRead`. -/
def getMaxUnsegmentedRead (rb : RingBuffer) : ℕ × RingBuffer :=
  if rb.bytesUsed = 0 then (0, { rb with emptyCounter := add32 rb.emptyCounter 1 })
  else (rb.unsegmentedRead, rb)

/-- `GWEN_RingBuffer_GetMaxUnsegmentedWrite`. -/
def getMaxUnsegmentedWrite (rb : RingBuffer) : ℕ × RingBuffer :=
  if rb.bufferSize - rb.bytesUsed = 0 then (0, { rb with fullCounter := add32 rb.fullCounter 1 })
  else (rb.unsegmentedWrite, rb)

/-- `GWEN_RingBuffer_SkipBytesRead`. -/
def skipBytesRead (rb : RingBuffer) (psize : ℕ) : Option RingBuffer :=
  if rb.bytesUsed < psize then none
  else some { rb with
    readPos := rb.advance rb.readPos psize
    bytesUsed := rb.bytesUsed - psize
    throughput := add32 rb.throughput psize }

/-- `GWEN_RingBuffer_SkipBytesWrite`. -/
def skipBytesWrite (rb : RingBuffer) (psize : ℕ) : Option RingBuffer :=
  if rb.bufferSize - rb.bytesUsed < psize then none
  else some { rb with
    writePos := rb.advance rb.writePos psize
    bytesUsed := add32 rb.bytesUsed psize
    maxBytesUsed := max rb.maxBytesUsed (add32 rb.bytesUsed psize) }

/-- `GWEN_RingBuffer_WriteByte`. -/
def writeByte (rb : RingBuffer) (c : UInt8) : Option (ℤ × RingBuffer) :=
  if rb.bufferSize - rb.bytesUsed = 0 then
    some (-1, { rb with fullCounter := add32 rb.fullCounter 1 })
  else
    (Block.store rb.ptr rb.writePos [c]).map fun ptr =>
      (0, { rb with
        ptr := ptr
        writePos := rb.advance rb.writePos 1
        bytesUsed := add32 rb.bytesUsed 1
        maxBytesUsed := max rb.maxBytesUsed (add32 rb.bytesUsed 1) })

/-- `GWEN_RingBuffer_ReadByte`: the byte, or -1. -/
def readByte (rb : RingBuffer) : Option (ℤ × RingBuffer) :=
  if rb.bytesUsed = 0 then some (-1, { rb with emptyCounter := add32 rb.emptyCounter 1 })
  else
    (Block.load rb.ptr rb.readPos 1).bind fun bytes =>
      bytes.head?.map fun c =>
        ((c.toNat : ℤ), { rb with
          readPos := rb.advance rb.readPos 1
          bytesUsed := rb.bytesUsed - 1
          throughput := add32 rb.throughput 1 })

/-- `GWEN_RingBuffer_GetUsedBytes`. -/
def getUsedBytes (rb : RingBuffer) : ℕ := rb.bytesUsed

/-- The bytes at `GWEN_RingBuffer_GetReadPointer`. -/
def loadReadPointer (rb : RingBuffer) (n : ℕ) : Option (List UInt8) :=
  Block.load rb.ptr rb.readPos n

/-- The caller stores bytes at `GWEN_RingBuffer_GetWritePointer`. -/
def storeWritePointer (rb : RingBuffer) (bytes : List UInt8) : Option RingBuffer :=
  (Block.store rb.ptr rb.writePos bytes).map fun ptr => { rb with ptr := ptr }

end RingBuffer
end Gwenhywfar
