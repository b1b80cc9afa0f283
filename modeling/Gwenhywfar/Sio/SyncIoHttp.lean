import Gwenhywfar.Sio.HttpText
import Gwenhywfar.Sio.SyncIoBuffered

/-! # `GWEN_SYNCIO_HTTP`

* `HttpWriter.write` and `HttpReader.read`: one call of `GWEN_SyncIo_Http_Write` and of
  `GWEN_SyncIo_Http_Read`.
* The writer sits on a layer that takes all the bytes of a write or reports an error; the reader
  sits on a `GWEN_SYNCIO_BUFFERED`. -/

namespace Gwenhywfar.Http

open Text
open CString (ofBytes)

/-- `GWEN_SYNCIO_HTTP_MODE`. -/
inductive Mode where
  | idle
  | chunkSize
  | chunk
  | body
  | error
deriving DecidableEq, Repr

/-- The group `command`. -/
structure CommandDb where
  command : Option CString
  url : Option CString
  protocol : Option CString
deriving DecidableEq

/-- The group `status`. -/
structure StatusDb where
  protocol : Option CString
  code : Option Int32
  text : Option CString
deriving DecidableEq

def textOr (s : Option CString) (defVal : List UInt8) : List UInt8 :=
  match s with
  | some s => s.bytes
  | none => defVal

/-- `HTTP/1.0`. -/
def protocol10 : List UInt8 := ascii ['H', 'T', 'T', 'P', '/', '1', '.', '0']

/-- `HTTP/0.9`. -/
def protocol09 : List UInt8 := ascii ['H', 'T', 'T', 'P', '/', '0', '.', '9']

/-- An `uint32_t` as an `int`. -/
def intOf32 (n : ℕ) : ℤ := intOfDiff32 n 0

/-! ### Writing -/

/-- The writing half of the layer.  The write number `i` to the layer below is taken, or it
reports the error `-(rv + 1)`. -/
structure HttpWriter where
  passive : Bool
  connected : Bool
  writeMode : Mode
  currentWriteBodySize : ℤ
  dbCommandOut : CommandDb
  dbStatusOut : StatusDb
  dbHeaderOut : List HeaderVar
  results : ℕ → Option ℕ
  calls : ℕ
  written : List UInt8

namespace HttpWriter

/-- `GWEN_SyncIo_WriteForced` of the layer below. -/
def writeForced (w : HttpWriter) (buffer : List UInt8) : ℤ × HttpWriter :=
  match w.results w.calls with
  | some rv => (-(rv + 1), { w with calls := w.calls + 1 })
  | none =>
      (intOf32 buffer.length, { w with calls := w.calls + 1, written := w.written ++ buffer })

/-- `GWEN_SyncIo_Http_SetWriteIdle`. -/
def setWriteIdle (w : HttpWriter) : HttpWriter :=
  { w with writeMode := .idle, dbStatusOut := ⟨none, none, none⟩ }

def commandLine (db : CommandDb) : List UInt8 :=
  textOr db.command (ascii ['G', 'E', 'T']) ++ code ' ' :: textOr db.url (ascii ['/']) ++
    code ' ' :: textOr db.protocol protocol10 ++ crlf

/-- `GWEN_SyncIo_Http_WriteCommand`. -/
def writeCommand (w : HttpWriter) : ℤ × HttpWriter :=
  let (rv, w) := w.writeForced (commandLine w.dbCommandOut)
  if rv < 0 then (rv, w) else (0, w)

def statusLine (db : StatusDb) (i : Int32) : List UInt8 :=
  textOr db.protocol protocol10 ++ code ' ' :: printInt i ++ code ' ' ::
    textOr db.text (ascii ['N', 'o', ' ', 't', 'e', 'x', 't', '.']) ++ crlf

/-- `GWEN_SyncIo_Http_WriteStatus`. -/
def writeStatus (w : HttpWriter) : ℤ × HttpWriter :=
  let i := w.dbStatusOut.code.getD (-1)
  if i = -1 then (errorNoData, w)
  else
    let (rv, w) := w.writeForced (statusLine w.dbStatusOut i)
    if rv < 0 then (rv, w) else (0, w)

/-- `GWEN_SyncIo_Http_WriteHeader`. -/
def writeHeader (w : HttpWriter) : ℤ × HttpWriter :=
  let w :=
    { w with
      writeMode := if w.dbHeaderOut.any asksForChunks then .chunkSize else .body
      currentWriteBodySize := (getIntValue w.dbHeaderOut contentLength (-1)).toInt }
  match headerText w.dbHeaderOut with
  | none => (errorBadData, w)
  | some text =>
      let (rv, w) := w.writeForced text
      if rv < 0 then (rv, w)
      else (0, if w.currentWriteBodySize = 0 then w.setWriteIdle else w)

/-- The first part of `GWEN_SyncIo_Http_Write`: a message begins. -/
def startMessage (w : HttpWriter) : ℤ × HttpWriter :=
  let (rv, w) := if w.passive then w.writeStatus else w.writeCommand
  if rv < 0 then (rv, { w with writeMode := .error })
  else if (textOr w.dbCommandOut.protocol protocol10).map toLower = protocol09.map toLower then
    (0, w)
  else
    let (rv, w) := w.writeHeader
    if rv < 0 then (rv, { w with writeMode := .error }) else (0, w)

/-- The hexadecimal digits of a number that is not 0, as `%x` prints them. -/
def hexDigitsOf (n : ℕ) : List UInt8 :=
  (Nat.digits 16 n).reverse.map fun d =>
    if d < 10 then code '0' + UInt8.ofNat d else code 'a' + UInt8.ofNat (d - 10)

/-- `GWEN_SyncIo_Http_WriteChunkSize`. -/
def writeChunkSize (w : HttpWriter) (size : ℕ) : ℤ × HttpWriter :=
  let (rv, w) := w.writeForced ((if size = 0 then [code '0'] else hexDigitsOf size) ++ crlf)
  if rv < 0 then (rv, w) else (0, w)

/-- `GWEN_SyncIo_Http_Write` in the mode `GWEN_SyncIo_Http_Mode_Chunk`: nothing follows the bytes
of the chunk. -/
def writeChunk (w : HttpWriter) (buffer : List UInt8) : ℤ × HttpWriter :=
  let (rv, w) := w.writeForced buffer
  if rv < 0 then (rv, { w with writeMode := .error }) else (rv, { w with writeMode := .chunkSize })

/-- `GWEN_SyncIo_Http_Write` in the mode `GWEN_SyncIo_Http_Mode_Body`. -/
def writeBody (w : HttpWriter) (buffer : List UInt8) : ℤ × HttpWriter :=
  if w.currentWriteBodySize ≠ -1 ∧ w.currentWriteBodySize < intOf32 buffer.length then
    (errorInvalid, { w with writeMode := .error })
  else
    let (rv, w) := w.writeForced buffer
    if rv < 0 then (rv, { w with writeMode := .error })
    else if w.currentWriteBodySize ≠ -1 then
      let w := { w with currentWriteBodySize := w.currentWriteBodySize - rv }
      (rv, if w.currentWriteBodySize = 0 then w.setWriteIdle else w)
    else (rv, w)

/-- The part of `GWEN_SyncIo_Http_Write` behind the header. -/
def writeContent (w : HttpWriter) (buffer : List UInt8) : ℤ × HttpWriter :=
  match w.writeMode with
  | .chunkSize =>
      let (rv, w) := w.writeChunkSize buffer.length
      if rv < 0 then (rv, { w with writeMode := .error })
      else if buffer.length = 0 then (0, w.setWriteIdle)
      else { w with writeMode := .chunk }.writeChunk buffer
  | .chunk => w.writeChunk buffer
  | .body => w.writeBody buffer
  | .error => (errorGeneric, w)
  | .idle => (0, w)

/-- `GWEN_SyncIo_Http_Write`. -/
def write (w : HttpWriter) (buffer : List UInt8) : ℤ × HttpWriter :=
  if w.connected then
    if w.writeMode = .idle then
      let (rv, w) := w.startMessage
      if rv < 0 then (rv, w) else w.writeContent buffer
    else w.writeContent buffer
  else (errorNotConnected, w)

/-- Writes one after the other; their results. -/
def writes : HttpWriter → List (List UInt8) → List ℤ × HttpWriter
  | w, [] => ([], w)
  | w, buffer :: buffers =>
      let (rv, w) := w.write buffer
      let (rvs, w) := writes w buffers
      (rv :: rvs, w)

end HttpWriter

/-! ### Reading -/

/-- The reading half of the layer. -/
structure HttpReader where
  passive : Bool
  connected : Bool
  readMode : Mode
  currentReadChunkSize : ℤ
  currentReadBodySize : ℤ
  dbCommandIn : CommandDb
  dbStatusIn : StatusDb
  dbHeaderIn : List HeaderVar
  base : SyncIoBuffered

/-- The loop of `GWEN_SyncIo_Http_ReadLine` behind the bytes `tbuf`.  `room n` is the room that
`GWEN_Buffer_AllocRoom` leaves in a buffer with `n` bytes; a round takes a byte or is the last. -/
def readLineLoop (room : ℕ → ℕ) :
    ℕ → SyncIoBuffered → List UInt8 → Option (ℤ × List UInt8 × SyncIoBuffered)
  | 0, _, _ => none
  | k + 1, base, tbuf =>
      (base.read false (room tbuf.length)).bind fun (out, base) =>
        if out.rv < 0 then some (out.rv, tbuf, base)
        else if 0 < out.rv then
          if out.buffer.getLast? = some 10 then
            some (0, tbuf ++ out.buffer.dropLast ++ [0], base)
          else readLineLoop room k base (tbuf ++ out.buffer)
        else some (if tbuf = [] then errorEof else 0, tbuf, base)

def rounds (base : SyncIoBuffered) : ℕ :=
  base.readBuffer.getUsedBytes + base.base.stream.length + 1

/-- The loop of `GWEN_SyncIo_Http_ReadHeader`: `pos` is where the line begins, `lines` counts the
line ends. -/
def readHeaderLoop : ℕ → SyncIoBuffered → (tbuf : List UInt8) → (pos lines : ℕ) →
    Option (ℤ × List UInt8 × ℕ × SyncIoBuffered)
  | 0, _, _, _, _ => none
  | k + 1, base, tbuf, pos, lines =>
      (base.read false 1024).bind fun (out, base) =>
        if out.rv < 0 then some (out.rv, tbuf, lines, base)
        else if 0 < out.rv then
          let tbuf := tbuf ++ out.buffer
          if out.buffer.getLast? = some 10 then
            if tbuf.length - pos = 1 then some (0, tbuf, lines + 1, base)
            else readHeaderLoop k base tbuf tbuf.length (lines + 1)
          else readHeaderLoop k base tbuf pos lines
        else some (0, tbuf, lines, base)

/-- `sscanf(s, "%x", &num)`: the number, if there is one, as `strtoul` gives it, cut to an `int`. -/
def scanHex (s : List UInt8) : Option ℤ :=
  let s := s.dropWhile isSpace
  let negative := s.head? = some (code '-')
  let s := if negative ∨ s.head? = some (code '+') then s.tail else s
  let s := if s.take 1 = ascii ['0'] ∧ (s.drop 1).head?.map toLower = some (code 'x') ∧
    ((s.drop 2).head?.map isXDigit).getD false then s.drop 2 else s
  let ds := s.takeWhile isXDigit
  if ds = [] then none
  else
    let n : ℤ := ds.foldl (fun n d => n * 16 + (hexValue d).toNat) 0
    some (Int32.ofInt (if 2 ^ 64 ≤ n then 2 ^ 64 - 1 else if negative then -n else n)).toInt

namespace HttpReader

/-- `GWEN_SyncIo_Http_SetReadIdle`. -/
def setReadIdle (r : HttpReader) : HttpReader := { r with readMode := .idle }

/-- `GWEN_SyncIo_Http_ReadLine`. -/
def readLine (room : ℕ → ℕ) (r : HttpReader) : Option (ℤ × List UInt8 × HttpReader) :=
  (readLineLoop room (rounds r.base) r.base []).map fun (rv, tbuf, base) =>
    (rv, tbuf, { r with base := base })

/-- `GWEN_SyncIo_Http_ParseStatus`. -/
def parseStatus (r : HttpReader) (buffer : List UInt8) : ℤ × HttpReader :=
  match buffer.dropWhile (· != code ' ') with
  | [] => (errorInvalid, r)
  | _ :: s =>
      let r := { r with dbStatusIn := { r.dbStatusIn with
        protocol := some (ofBytes (buffer.takeWhile (· != code ' '))) } }
      match scanInt (s.takeWhile isDigit) with
      | none => (errorInvalid, r)
      | some code =>
          (0, { r with dbStatusIn := { r.dbStatusIn with
            code := some code
            text := some (ofBytes (s.dropWhile isDigit).tail) } })

/-- `GWEN_SyncIo_Http_ParseCommand`. -/
def parseCommand (r : HttpReader) (buffer : List UInt8) : ℤ × HttpReader :=
  match buffer.dropWhile (· != code ' ') with
  | [] => (errorInvalid, r)
  | _ :: s =>
      let r := { r with dbCommandIn := { r.dbCommandIn with
        command := some (ofBytes (buffer.takeWhile (· != code ' '))) } }
      match s.dropWhile (· != code ' ') with
      | [] => (errorInvalid, r)
      | _ :: s' =>
          let r := { r with dbCommandIn := { r.dbCommandIn with
            url := some (ofBytes (s.takeWhile (· != code ' '))) } }
          if s' = [] then (errorInvalid, r)
          else
            (0, { r with dbCommandIn := { r.dbCommandIn with
              protocol := some (ofBytes s') } })

/-- `GWEN_SyncIo_Http_ReadStatus`. -/
def readStatus (room : ℕ → ℕ) (r : HttpReader) : Option (ℤ × HttpReader) :=
  (r.readLine room).map fun (rv, tbuf, r) =>
    let line := (ofBytes tbuf).bytes
    if rv < 0 then (rv, r)
    else if line = [] then (errorEof, r)
    else r.parseStatus line

/-- `GWEN_SyncIo_Http_ReadCommand`. -/
def readCommand (room : ℕ → ℕ) (r : HttpReader) : Option (ℤ × HttpReader) :=
  (r.readLine room).map fun (rv, tbuf, r) =>
    if rv < 0 then (rv, r) else r.parseCommand (ofBytes tbuf).bytes

/-- `GWEN_SyncIo_Http_ParseHeader`. -/
def parseHeader (r : HttpReader) (buf : List UInt8) : Option (ℤ × HttpReader) :=
  (parseHeaderText buf).map fun (parsed, vars) =>
    let r := { r with dbHeaderIn := vars }
    if parsed then
      let chunked :=
        ((getCharValue vars transferEncoding).map fun s => comparePattern s chunkedPattern)
          |>.getD false
      let size := (getIntValue vars contentLength (-1)).toInt
      let r :=
        { r with
          readMode := if chunked then .chunkSize else .body
          currentReadChunkSize := if chunked then -1 else r.currentReadChunkSize
          currentReadBodySize := size }
      let rcode := (r.dbStatusIn.code.getD (-1)).toInt
      if size = 0 ∨ size = -1 ∧ (rcode < 0 ∨ 300 ≤ rcode) then (0, r.setReadIdle) else (0, r)
    else (errorBadData, r)

/-- `GWEN_SyncIo_Http_ReadHeader`. -/
def readHeader (r : HttpReader) : Option (ℤ × HttpReader) :=
  (readHeaderLoop (rounds r.base) r.base [] 0 0).bind fun (rv, tbuf, lines, base) =>
    let r := { r with base := base }
    if rv < 0 then some (rv, r)
    else if lines < 1 then some (errorEof, r)
    else r.parseHeader (ofBytes tbuf).bytes

/-- `GWEN_SyncIo_Http_ReadChunkSize`. -/
def readChunkSize (room : ℕ → ℕ) (r : HttpReader) : Option (ℤ × HttpReader) :=
  (r.readLine room).bind fun (rv, tbuf, r) =>
    if rv < 0 then some (rv, r)
    else
      let line := (ofBytes tbuf).bytes
      let scan := fun (line : List UInt8) (r : HttpReader) =>
        match scanHex line with
        | none => (errorBadData, r)
        | some csize => (0, { r with currentReadChunkSize := csize })
      if line = [] then
        (r.readLine room).map fun (rv, tbuf, r) =>
          if rv < 0 then (rv, r) else scan (ofBytes tbuf).bytes r
      else some (scan line r)

/-- The bytes that `GWEN_SyncIo_Http_ReadChunk` asks for: an `int` becomes an `uint32_t`. -/
def chunkRequest (r : HttpReader) (size : ℕ) : ℕ :=
  if r.currentReadChunkSize < intOf32 size then (r.currentReadChunkSize % 2 ^ 32).toNat else size

/-- `GWEN_SyncIo_Http_ReadChunk`. -/
def readChunk (room : ℕ → ℕ) (r : HttpReader) (size : ℕ) : Option (ReadOutcome × HttpReader) :=
  (r.base.read true (r.chunkRequest size)).bind fun (out, base) =>
    let r := { r with base := base }
    if out.rv < 0 then some (⟨out.rv, out.buffer⟩, r)
    else
      let r :=
        { r with
          currentReadChunkSize := r.currentReadChunkSize - out.rv
          currentReadBodySize :=
            if 0 < r.currentReadBodySize then r.currentReadBodySize - out.rv
            else r.currentReadBodySize }
      if r.currentReadChunkSize = 0 then
        (r.readLine room).map fun (rv2, _, r) =>
          if rv2 < 0 then (⟨rv2, out.buffer⟩, r) else (out, { r with readMode := .chunkSize })
      else some (out, r)

/-- The bytes that `GWEN_SyncIo_Http_ReadBody` asks for. -/
def bodyRequest (r : HttpReader) (size : ℕ) : ℕ :=
  if 0 ≤ r.currentReadBodySize ∧ r.currentReadBodySize < intOf32 size then
    r.currentReadBodySize.toNat
  else size

/-- `GWEN_SyncIo_Http_ReadBody`; a size of 0 fails its assertion. -/
def readBody (r : HttpReader) (size : ℕ) : Option (ReadOutcome × HttpReader) :=
  if size = 0 then none
  else
    (r.base.read true (r.bodyRequest size)).map fun (out, base) =>
      let r := { r with base := base }
      if out.rv < 0 then (out, r)
      else
        let r :=
          { r with
            currentReadBodySize :=
              if 0 ≤ r.currentReadBodySize then r.currentReadBodySize - out.rv
              else r.currentReadBodySize }
        (out, if r.currentReadBodySize = 0 then r.setReadIdle else r)

/-- The first part of `GWEN_SyncIo_Http_Read`: a message begins. -/
def startMessage (room : ℕ → ℕ) (r : HttpReader) : Option (ℤ × HttpReader) :=
  let r :=
    { r with
      dbCommandIn := ⟨none, none, none⟩
      dbStatusIn := ⟨none, none, none⟩
      dbHeaderIn := [] }
  let first := if r.passive then r.readCommand room else r.readStatus room
  first.bind fun (rv, r) =>
    if rv < 0 then some (rv, { r with readMode := .error })
    else
      let protocol :=
        textOr (if r.passive then r.dbCommandIn.protocol else r.dbStatusIn.protocol) protocol10
      if protocol.map toLower = protocol09.map toLower then some (0, r)
      else
        r.readHeader.map fun (rv, r) =>
          if rv < 0 then (rv, { r with readMode := .error }) else (0, r)

def failed (res : ReadOutcome × HttpReader) : ReadOutcome × HttpReader :=
  if res.1.rv < 0 then (res.1, { res.2 with readMode := .error }) else res

/-- The part of `GWEN_SyncIo_Http_Read` behind the header. -/
def readContent (room : ℕ → ℕ) (r : HttpReader) (size : ℕ) : Option (ReadOutcome × HttpReader) :=
  match r.readMode with
  | .chunkSize =>
      (r.readChunkSize room).bind fun (rv, r) =>
        if rv < 0 then some (⟨rv, []⟩, { r with readMode := .error })
        else if r.currentReadChunkSize = 0 then
          (r.readLine room).map fun (rv2, _, r) =>
            if rv2 < 0 then (⟨rv2, []⟩, r) else (⟨0, []⟩, r.setReadIdle)
        else if r.currentReadChunkSize = -1 then
          some (⟨errorBadData, []⟩, { r with readMode := .error })
        else ({ r with readMode := .chunk }.readChunk room size).map failed
  | .chunk => (r.readChunk room size).map failed
  | .body => (r.readBody size).map failed
  | .error => some (⟨errorGeneric, []⟩, r)
  | .idle => some (⟨0, []⟩, r)

/-- `GWEN_SyncIo_Http_Read`. -/
def read (room : ℕ → ℕ) (r : HttpReader) (size : ℕ) : Option (ReadOutcome × HttpReader) :=
  if r.connected then
    if r.readMode = .idle then
      (r.startMessage room).bind fun (rv, r) =>
        if rv < 0 then some (⟨rv, []⟩, r) else r.readContent room size
    else r.readContent room size
  else some (⟨errorNotConnected, []⟩, r)

/-- Reads one after the other; their results. -/
def reads (room : ℕ → ℕ) : HttpReader → List ℕ → Option (List ReadOutcome × HttpReader)
  | r, [] => some ([], r)
  | r, size :: sizes =>
      (r.read room size).bind fun (out, r) =>
        (reads room r sizes).map fun (outs, r) => (out :: outs, r)

end HttpReader
end Gwenhywfar.Http
