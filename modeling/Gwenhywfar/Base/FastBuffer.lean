import Gwenhywfar.Base.CString
import Gwenhywfar.Base.Error

/-! # `GWEN_FAST_BUFFER`

A buffer in front of a `GWEN_SYNCIO`.  The macros set a variable, which is the first component of
the result here.

* `FastWriter`: a buffer that is written to.  The io may fail in every call of
  `GWEN_SyncIo_WriteForced`, after it has taken some of the bytes.
* `FastReader`: a buffer that is read from.  The io hands out the bytes in pieces. -/

namespace Gwenhywfar

/-! ### Writing -/

/-- What a call of `GWEN_SyncIo_WriteForced` does: it writes all bytes, or it writes only so many
and reports the error `-(rv + 1)`. -/
inductive WriteResult where
  | done
  | failed (rv accepted : ℕ)
deriving DecidableEq, Repr

/-- A `GWEN_SYNCIO` with the results of its calls, and the bytes that it was handed. -/
structure WriteIo where
  results : ℕ → WriteResult
  calls : ℕ
  sink : List UInt8

/-- `GWEN_SyncIo_WriteForced`. -/
def WriteIo.writeForced (io : WriteIo) (buffer : List UInt8) : ℤ × WriteIo :=
  match io.results io.calls with
  | .done => (buffer.length, { io with calls := io.calls + 1, sink := io.sink ++ buffer })
  | .failed rv accepted =>
      (-(rv + 1), { io with calls := io.calls + 1, sink := io.sink ++ buffer.take accepted })

/-- A `GWEN_FAST_BUFFER` that is written to, with the bytes before `bufferWritePos`. -/
structure FastWriter where
  bufferSize : ℕ
  buffer : List UInt8
  flags : UInt32
  io : WriteIo

namespace FastWriter

/-- `GWEN_FAST_BUFFER_FLAGS_DOSMODE`. -/
def flagsDosMode : UInt32 := 0x0001

/-- `GWEN_FastBuffer_new`. -/
def new (bsize : ℕ) (io : WriteIo) : FastWriter := ⟨bsize, [], 0, io⟩

/-- `GWEN_FastBuffer_AddFlags`. -/
def addFlags (fb : FastWriter) (fl : UInt32) : FastWriter := { fb with flags := fb.flags ||| fl }

/-- `GWEN_FASTBUFFER_FLUSH`. -/
def flush (fb : FastWriter) : ℤ × FastWriter :=
  let (rv, io) := fb.io.writeForced fb.buffer
  if rv < fb.buffer.length then (rv, { fb with io := io })
  else (0, { fb with io := io, buffer := [] })

/-- `GWEN_FASTBUFFER_WRITEBYTE`. -/
def writeByte (fb : FastWriter) (chr : UInt8) : ℤ × FastWriter :=
  if fb.bufferSize ≤ fb.buffer.length then
    let (rv, io) := fb.io.writeForced fb.buffer
    if rv < fb.buffer.length then (rv, { fb with io := io })
    else (0, { fb with io := io, buffer := [chr] })
  else (0, { fb with buffer := fb.buffer ++ [chr] })

/-- `GWEN_FASTBUFFER_WRITEBYTES`: an error, or the number of bytes that were written. -/
def writeBytes (fb : FastWriter) (p : List UInt8) : ℤ × FastWriter :=
  let (rv, fb) := if fb.bufferSize ≤ fb.buffer.length then fb.flush else (0, fb)
  if rv = 0 then
    let bytes := min (fb.bufferSize - fb.buffer.length) p.length
    (bytes, { fb with buffer := fb.buffer ++ p.take bytes })
  else (rv, fb)

/-- The loop of `GWEN_FASTBUFFER_WRITEFORCED`, in at most `k` rounds. -/
def writeForcedLoop : (k : ℕ) → FastWriter → List UInt8 → ℤ × FastWriter
  | _, fb, [] => (0, fb)
  | 0, fb, _ :: _ => (0, fb)
  | k + 1, fb, c :: p =>
      let (rv, fb) := fb.writeBytes (c :: p)
      if rv < 0 then (rv, fb)
      else if rv = 0 then (errorEof, fb)
      else writeForcedLoop k fb ((c :: p).drop rv.toNat)

/-- `GWEN_FASTBUFFER_WRITEFORCED`; a round without an error writes a byte at least. -/
def writeForced (fb : FastWriter) (p : List UInt8) : ℤ × FastWriter :=
  writeForcedLoop p.length fb p

/-- `GWEN_FASTBUFFER_WRITELINE`. -/
def writeLine (fb : FastWriter) (p : List UInt8) : ℤ × FastWriter :=
  let (rv, fb) := fb.writeForced p
  if rv < 0 then (rv, fb)
  else
    let (rv, fb) :=
      if fb.flags &&& flagsDosMode != 0 then fb.writeForced [0x0d, 0x0a] else fb.writeForced [0x0a]
    if rv < 0 then (rv, fb) else (0, fb)

end FastWriter

/-! ### Reading -/

/-- What a call of `GWEN_SyncIo_Read` returns: some bytes, none of them at the end of the stream,
or the error `-(rv + 1)`. -/
inductive ReadResult where
  | data (bytes : List UInt8)
  | failed (rv : ℕ)
deriving DecidableEq, Repr

/-- A `GWEN_FAST_BUFFER` that is read from: the bytes from `bufferReadPos` to `bufferWritePos`, and
the results of the coming calls of the io, which has no bytes afterwards. -/
structure FastReader where
  unread : List UInt8
  io : List ReadResult
deriving DecidableEq, Repr

namespace FastReader

/-- The bytes of a line that are in the buffer, without CR, whether its end is there, and the bytes
behind it. -/
def takeLine : List UInt8 → Bool × List UInt8 × List UInt8
  | [] => (false, [], [])
  | c :: bytes =>
      if c = 0x0a then (true, [], bytes)
      else
        let (complete, line, rest) := takeLine bytes
        if c = 0x0d then (complete, line, rest) else (complete, c :: line, rest)

/-- The rounds of `GWEN_FastBuffer_ReadLineToBuffer` that begin with an empty buffer. -/
def readRounds (hadSome : Bool) (buf : List UInt8) : List ReadResult → ℤ × List UInt8 × FastReader
  | [] => (if hadSome then 0 else errorEof, buf, ⟨[], []⟩)
  | .failed rv :: io =>
      if -(rv + 1 : ℤ) = errorEof ∧ hadSome then (0, buf, ⟨[], io⟩) else (-(rv + 1), buf, ⟨[], io⟩)
  | .data [] :: io => (if hadSome then 0 else errorEof, buf, ⟨[], io⟩)
  | .data (c :: bytes) :: io =>
      let (complete, line, rest) := takeLine (c :: bytes)
      if complete then (0, buf ++ line, ⟨rest, io⟩) else readRounds true (buf ++ line) io

/-- `GWEN_FastBuffer_ReadLineToBuffer`: the result and the buffer with the line behind its bytes. -/
def readLineToBuffer (fb : FastReader) (buf : List UInt8) : ℤ × List UInt8 × FastReader :=
  let (complete, line, rest) := takeLine fb.unread
  if complete then (0, buf ++ line, ⟨rest, fb.io⟩)
  else readRounds (fb.unread != []) (buf ++ line) fb.io

end FastReader
end Gwenhywfar
