import Gwenhywfar.Parser.XmlCtx

/-! # Reading XML

* `readData`, `readTag`: `GWEN_XML__ReadData` and `GWEN_XML__ReadTag`.
* `readFromFastBuffer`, `readAll`, `readFromString`: `GWEN_XML_ReadFromFastBuffer`,
  `GWEN_XML__ReadAllFromIo` and `GWEN_XMLContext_ReadFromString`.  Loops that call other readers
  have a bound for their rounds; they would return 1 there.
* `iconv` converts texts to UTF-8: for some character sets it is not available, and for some texts
  it fails. -/

namespace Gwenhywfar

/-- `iconv_open` and `iconv`. -/
abbrev Iconv := CString → List UInt8 → Option (Option (List UInt8))

namespace Xml

open Text

variable (iconv : Iconv)

/-- `GWEN_Text_ConvertCharset`, to UTF-8. -/
def convertCharset (fromCharset : Option CString) (text : List UInt8) : Except ℤ (List UInt8) :=
  match fromCharset with
  | none => .ok text
  | some charset =>
      if charset.bytes = [] ∨ strcaseEq charset (str ['U', 'T', 'F', '-', '8']) = true then .ok text
      else
        match iconv charset text with
        | none => .ok text
        | some none => .error errorGeneric
        | some (some converted) => .ok converted

def convert (text : List UInt8) : XmlM (List UInt8) := fun st =>
  match convertCharset iconv st.ctx.encoding text with
  | .ok converted => .ok converted st
  | .error rv => .error rv st

/-! ### Data and comments -/

/-- `GWEN_XML__ReadData`. -/
def readData : XmlM Unit := do
  let dbuf ← scan fun s => some (s.takeWhile (· != code '<'), s.dropWhile (· != code '<'))
  if dbuf ≠ [] then
    let s ← convert iconv dbuf
    if s.headD 0 ≠ 0 then onCtx storeAddData

/-- The bytes of a comment up to its end. -/
def scanComment : (cbuf : List UInt8) → List UInt8 → Option (List UInt8 × List UInt8)
  | _, [] => none
  | cbuf, c :: s =>
      let cbuf := cbuf ++ [c]
      if 2 < cbuf.length ∧ cbuf.drop (cbuf.length - 3) = ascii ['-', '-', '>'] then
        some (cbuf.take (cbuf.length - 3), s)
      else scanComment cbuf s

/-- The rest of a comment; the context ignores it. -/
def readComment : XmlM Unit := do
  let cbuf ← scan (scanComment [])
  let _ ← convert iconv cbuf

/-! ### Tags -/

def skipBlanks : XmlM UInt8 :=
  scan fun s =>
    match s.dropWhile (· ≤ 32) with
    | [] => none
    | c :: rest => some (c, rest)

def scanEndName (s : List UInt8) : Option ((List UInt8 × UInt8) × List UInt8) :=
  let inName (c : UInt8) : Bool := c != code '>' && 33 ≤ c
  match s.dropWhile inName with
  | [] => none
  | c :: rest => some ((s.takeWhile inName, c), rest)

def readEndTag : XmlM Unit := do
  let (name, uc) ← scan scanEndName
  onCtx (storeStartTag · (CString.ofBytes (code '/' :: name)))
  let uc ← if uc = code '>' then pure uc else skipBlanks
  if uc ≠ code '>' then throw errorBadData
  else onCtx (storeEndTag · false)

/-- A character `?` or `!` when the name begins with the same character. -/
def isNameEnd (dbuf : List UInt8) (uc : UInt8) : Bool :=
  dbuf.head? == some uc && (uc == code '!' || uc == code '?')

/-- The name of a tag and the character that ends it; behind a `?` or a `!` the next character is
taken without moving on. -/
def scanName : (dbuf : List UInt8) → (uc : UInt8) → List UInt8 →
    Option ((List UInt8 × UInt8) × List UInt8)
  | dbuf, uc, [] =>
      if uc = code ' ' ∨ uc = code '>' ∨ uc = code '/' then some ((dbuf, uc), []) else none
  | dbuf, uc, c :: s =>
      if uc = code ' ' ∨ uc = code '>' ∨ uc = code '/' then some ((dbuf, uc), c :: s)
      else if isNameEnd dbuf uc then
        if c = code '>' then some ((dbuf, c), s) else scanName (dbuf ++ [c]) c s
      else scanName (dbuf ++ [uc]) c s

/-- A character that can end a tag. -/
def isClosing (uc : UInt8) : Bool := uc == code '/' || uc == code '!' || uc == code '?'

def scanAttrName : (nbuf : List UInt8) → (uc : UInt8) → List UInt8 →
    Option ((List UInt8 × UInt8) × List UInt8)
  | nbuf, uc, s =>
      if isClosing uc ∨ uc = code '=' ∨ uc = code '>' then some ((nbuf, uc), s)
      else
        match s with
        | [] => none
        | c :: s => scanAttrName (nbuf ++ [uc]) c s

/-- The value of an attribute and the character that ends it, or nothing at a nested tag. -/
def scanAttrValue : (inQuote : Bool) → (vbuf : List UInt8) → List UInt8 →
    Option (Option (List UInt8 × UInt8) × List UInt8)
  | _, _, [] => none
  | inQuote, vbuf, uc :: s =>
      if uc = 0x22 then
        if inQuote then some (some (vbuf, uc), s) else scanAttrValue true vbuf s
      else if inQuote then scanAttrValue true (vbuf ++ [uc]) s
      else if uc = code '>' ∨ uc < 33 then some (some (vbuf, uc), s)
      else if uc = code '<' then some (none, s)
      else if isClosing uc then
        match s with
        | [] => none
        | tc :: _ =>
            if tc = code '>' then some (some (vbuf, uc), s) else scanAttrValue false (vbuf ++ [uc]) s
      else scanAttrValue false (vbuf ++ [uc]) s

def readAttrValue (uc : UInt8) : XmlM (Option CString × UInt8) :=
  if uc = code '=' then do
    let value ← scan (scanAttrValue false [])
    match value with
    | none => throw errorBadData
    | some (vbuf, uc) =>
        if vbuf = [] then pure (none, uc)
        else do
          let vbuf ← convert iconv vbuf
          pure (some (CString.ofBytes vbuf), uc)
  else pure (none, uc)

def readAttr : XmlM UInt8 := do
  let uc ← skipBlanks
  let (nbuf, uc) ← scan (scanAttrName [] uc)
  if nbuf = [] then pure uc
  else do
    let (value, uc) ← readAttrValue iconv uc
    onCtx (storeAddAttr · (CString.ofBytes nbuf) value)
    pure uc

/-- The loop that reads attributes, up to the character that ends the tag. -/
def readAttrs : ℕ → XmlM UInt8
  | 0 => throw 1
  | k + 1 => do
      let uc ← readAttr iconv
      if isClosing uc ∨ uc = code '>' then pure uc else readAttrs k

def readTagRest : XmlM Unit := do
  let st ← get
  let uc ← readAttrs iconv (st.rest.length + 1)
  if isClosing uc then
    let c ← peekByte
    if c = code '>' then
      skipByte
      onCtx (storeEndTag · true)
    else throw errorInternal
  else onCtx (storeEndTag · false)

def readStartTag (dbuf : List UInt8) (uc : UInt8) : XmlM Unit := do
  let (dbuf, uc) ← scan (scanName dbuf uc)
  if dbuf = [] then throw errorBadData
  else
    onCtx (storeStartTag · (CString.ofBytes dbuf))
    if isClosing uc then
      let c ← peekByte
      if c = code '>' then
        skipByte
        onCtx (storeEndTag · true)
      else readTagRest iconv
    else if uc = code '>' then onCtx (storeEndTag · false)
    else readTagRest iconv

/-- `GWEN_XML__ReadTag`. -/
def readTag : XmlM Unit := do
  let uc ← skipBlanks
  if uc = code '/' then readEndTag
  else if uc = code '!' then
    let c ← peekByte
    if c = code '-' then
      skipByte
      let c ← peekByte
      if c = code '-' then
        skipByte
        readComment iconv
      else readStartTag iconv (ascii ['!', '-']) c
    else readStartTag iconv [] uc
  else readStartTag iconv [] uc

/-! ### Whole texts -/

/-- The loop of `GWEN_XML_ReadFromFastBuffer`. -/
def readLoop (startingDepth : ℕ) : ℕ → (oks : Bool) → XmlM Unit
  | 0, _ => throw 1
  | k + 1, oks => do
      let st ← get
      if st.rest = [] then
        if oks then pure () else throw errorEof
      else
        readData iconv
        let st ← get
        if st.rest = [] then
          if st.ctx.depth ≠ startingDepth then throw errorEof else pure ()
        else
          skipByte
          readTag iconv
          let st ← get
          if st.ctx.finishedElements ≠ 0 ∧ st.ctx.depth = startingDepth then pure ()
          else readLoop startingDepth k true

/-- `GWEN_XmlCtx_ResetFinishedElement`. -/
def resetFinished (st : XmlState) : XmlState :=
  { st with ctx := { st.ctx with finishedElements := 0 } }

/-- `GWEN_XML_ReadFromFastBuffer`; each round reads a character at least. -/
def readFromFastBuffer : XmlM Unit := fun st =>
  readLoop iconv st.ctx.depth (st.rest.length + 1) false (resetFinished st)

/-- The loop of `GWEN_XML__ReadAllFromIo`. -/
def readAll : ℕ → (oks : Bool) → XmlState → ℤ × XmlState
  | 0, _, st => (1, st)
  | k + 1, oks, st =>
      match readFromFastBuffer iconv st with
      | .error rv st => if rv = errorEof ∧ oks = true then (0, st) else (rv, st)
      | .ok _ st => readAll k true st

/-- `GWEN_XMLContext_ReadFromString`; the stream holds the NUL of the string, too. -/
def readFromString (ctx : XmlCtx) (text : CString) : ℤ × XmlState :=
  if text.bytes = [] then (0, ⟨ctx, []⟩)
  else readAll iconv (text.bytes.length + 2) false ⟨ctx, text.bytes ++ [0]⟩

end Xml
end Gwenhywfar
