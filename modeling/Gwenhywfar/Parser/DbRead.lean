import Gwenhywfar.Base.FastBuffer
import Gwenhywfar.Parser.DbHeap

/-! # Reading a `GWEN_DB`

* `readValues`: `GWEN_DB__ReadValues`.
* `readLine`: what `GWEN_DB_ReadFromFastBuffer` does with a line; the group that the line belongs
  to and its depth are a part of the state.
* `readFromString`: `GWEN_DB_ReadFromString`.  Loops have a bound for their rounds. -/

namespace Gwenhywfar.Db

open Gwenhywfar.Path Text
open CString (ofBytes)

/-! ### Values -/

/-- The types of values that can be read. -/
inductive ValueType where
  | char
  | int
  | bin
deriving DecidableEq

/-- The type with a name; without a name it is `char`. -/
def valueType (typeName : Option CString) : Option ValueType :=
  let typeName := typeName.getD (ofBytes (ascii ['c', 'h', 'a', 'r']))
  if strcaseEq typeName (ofBytes (ascii ['i', 'n', 't'])) then some .int
  else if strcaseEq typeName (ofBytes (ascii ['c', 'h', 'a', 'r'])) then some .char
  else if strcaseEq typeName (ofBytes (ascii ['b', 'i', 'n'])) then some .bin
  else none

/-- The characters of a value, and what follows behind them or behind the closing quotation mark,
which may be missing. -/
def readChars (quotes : Bool) : (wbuf : List UInt8) → List UInt8 → Option (List UInt8 × List UInt8)
  | wbuf, [] => some (wbuf, [])
  | wbuf, c :: p =>
      if c = code '%' then
        match p with
        | d :: e :: p => readChars quotes (wbuf ++ [(hexValue d <<< 4) ||| hexValue e]) p
        | _ => none
      else if quotes then
        if c = 0x22 then some (wbuf, p) else readChars quotes (wbuf ++ [c]) p
      else if c = code ',' ∨ c = code ';' ∨ c = code '#' then some (wbuf, c :: p)
      else if c = 0x22 then none
      else readChars quotes (wbuf ++ [c]) p

def toValue (nodeType : ValueType) (v : CString) : Option DbValue :=
  match nodeType with
  | .int => (scanInt v.bytes).map .int
  | .char => some (.char v)
  | .bin => (fromHexBuffer v.bytes).map .bin

def appendValue (h : DbHeap) (dbVar : ℕ) (val : DbValue) : DbHeap :=
  nodeAppend (newNode h (.value val) (ofBytes [])) dbVar h.size

/-- The loop of `GWEN_DB__ReadValues`; each round but the last one takes a comma at least. -/
def readValuesLoop (nodeType : ValueType) (dbVar : ℕ) : ℕ → List UInt8 → DbHeap → ℤ × DbHeap
  | 0, _, h => (errorBadData, h)
  | k + 1, p, h =>
      let p := p.dropWhile isSpace
      if p = [] then (errorBadData, h)
      else
        let quotes := p.head? == some 0x22
        match readChars quotes [] (if quotes then p.tail else p) with
        | none => (errorBadData, h)
        | some (wbuf, p) =>
            match toValue nodeType (ofBytes wbuf) with
            | none => (errorBadData, h)
            | some val =>
                let h := appendValue h dbVar val
                match p.dropWhile isSpace with
                | [] => (0, h)
                | c :: p =>
                    if c = code ';' ∨ c = code '#' then (0, h)
                    else if c ≠ code ',' then (errorBadData, h)
                    else readValuesLoop nodeType dbVar k p h

/-- `GWEN_DB__ReadValues`. -/
def readValues (n : ℕ) (dbflags : UInt32) (typeName : Option CString) (varName : CString)
    (p : List UInt8) (h : DbHeap) : ℤ × DbHeap :=
  match valueType typeName with
  | none => (errorBadData, h)
  | some nodeType =>
      match getNode h n varName (dbflags ||| flagsVariable) with
      | (none, h) => (errorGeneric, h)
      | (some dbVar, h) => readValuesLoop nodeType dbVar (p.length + 1) p h

/-! ### Lines -/

/-- `GWEN_DB_UnescapeToBufferTolerant`. -/
def unescapeToBufferTolerant (src : List UInt8) : List UInt8 := unescapeWith (code '&') src

def isTokenChar (dbflags : UInt32) (c : UInt8) : Bool :=
  !isSpace c && c != code '{' && c != (if has dbflags flagsUseColon then code ':' else code '=') &&
    c != code '}' && c != code ',' && c != code ';'

/-- The group that a line belongs to, and its depth. -/
structure ReadState where
  n : ℕ
  level : ℕ
  heap : DbHeap

def ReadState.readValues (st : ReadState) (dbflags : UInt32) (typeName : Option CString)
    (varName : List UInt8) (p : List UInt8) : ℤ × ReadState :=
  let (rv, h) := Db.readValues st.n dbflags typeName (ofBytes varName) p st.heap
  (rv, { st with heap := h })

/-- A line with a type and the name of a variable. -/
def readTypedVar (dbflags : UInt32) (p1 p : List UInt8) (st : ReadState) : ℤ × ReadState :=
  let p2 := p.takeWhile (isTokenChar dbflags)
  match p.dropWhile (isTokenChar dbflags) with
  | [] => (errorBadData, st)
  | c :: p =>
      match if isSpace c then p.dropWhile isSpace else c :: p with
      | [] => (errorBadData, st)
      | c :: p =>
          if c ≠ code '=' ∧ c ≠ code ':' then (errorBadData, st)
          else st.readValues dbflags (some (ofBytes p1)) p2 p

/-- The current group is left; an assertion fails where it has no parent that is a group. -/
def ReadState.leave (st : ReadState) : Option ReadState :=
  ((st.heap.node st.n).parent.filter fun n => (st.heap.node n).typ = .group).map fun n =>
    { st with
      n := n
      level := st.level - 1 }

/-- What is done with a line that is not empty; the line ends at its first NUL. -/
def readLine (dbflags : UInt32) (line : List UInt8) (st : ReadState) : Option (ℤ × ReadState) :=
  match (ofBytes line).bytes.dropWhile isSpace with
  | [] => some (0, st)
  | c :: p =>
      if c = code '}' then
        if st.level < 1 then some (errorBadData, st) else st.leave.map fun st => (0, st)
      else if c = code '#' then some (0, st)
      else
        let p1 := (c :: p).takeWhile (isTokenChar dbflags)
        match (c :: p).dropWhile (isTokenChar dbflags) with
        | [] => some (errorBadData, st)
        | d :: p =>
            match (d :: p).dropWhile isSpace with
            | [] => some (errorBadData, st)
            | c :: p =>
                if c = code '{' then
                  match getGroup st.heap st.n dbflags
                      (ofBytes (unescapeToBufferTolerant p1)) with
                  | (none, h) => some (errorGeneric, { st with heap := h })
                  | (some newGr, h) => some (0, ⟨newGr, st.level + 1, h⟩)
                else if c = code '=' ∨ c = code ':' then some (st.readValues dbflags none p1 p)
                else if c = code ',' ∨ c = code ';' then some (errorBadData, st)
                else some (readTypedVar dbflags p1 (c :: p) st)

/-! ### Whole texts -/

/-- The loop of `GWEN_DB_ReadFromFastBuffer`, in at most so many rounds. -/
def readLines (dbflags : UInt32) : ℕ → (someLinesRead : Bool) → FastReader → ReadState →
    Option (ℤ × ReadState)
  | 0, _, _, st => some (0, st)
  | k + 1, someLinesRead, fb, st =>
      let (rv, lbuf, fb) := fb.readLineToBuffer []
      if rv < 0 then
        if rv = errorEof ∧ (someLinesRead = true ∨ has dbflags flagsAllowEmptyStream = true) then
          some (0, st)
        else some (rv, st)
      else if lbuf = [] then
        if has dbflags flagsUntilEmptyLine then some (0, st)
        else readLines dbflags k someLinesRead fb st
      else
        (readLine dbflags lbuf st).bind fun (rv, st) =>
          if rv ≠ 0 then some (rv, st) else readLines dbflags k true fb st

/-- `GWEN_DB_ReadFromFastBuffer`, for a stream of at most so many lines. -/
def readFromFastBuffer (h : DbHeap) (n : ℕ) (fb : FastReader) (dbflags : UInt32) (lines : ℕ) :
    Option (ℤ × DbHeap) :=
  (readLines dbflags (lines + 1) false fb ⟨n, 0, h⟩).map fun (rv, st) =>
    (if rv = 0 ∧ st.level ≠ 0 then errorBadData else rv, st.heap)

/-- What the calls of `GWEN_SyncIo_Memory_Read` return. -/
def memoryReads (size : ℕ) : ℕ → List UInt8 → List ReadResult
  | 0, _ => []
  | _ + 1, [] => []
  | k + 1, c :: text => .data ((c :: text).take size) :: memoryReads size k ((c :: text).drop size)

/-- `GWEN_DB_ReadFromString`, for a text with its length, which has a NUL behind it. -/
def readFromString (h : DbHeap) (n : ℕ) (text : List UInt8) (dbflags : UInt32) :
    Option (ℤ × DbHeap) :=
  readFromFastBuffer h n ⟨[], memoryReads 1024 text.length text⟩ dbflags text.length
end Gwenhywfar.Db
