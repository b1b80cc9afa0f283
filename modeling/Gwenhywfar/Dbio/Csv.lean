import Gwenhywfar.Base.FastBufferRead
import Gwenhywfar.Base.FastBufferWrite
import Gwenhywfar.Parser.DbHeap
import Gwenhywfar.Parser.Words
import Mathlib.Data.List.DropRight

/-! # Export and import of CSV

* `CsvConfig`: the values of the configuration that are looked up.
* `csvExport`, `csvImport`: `_csvExport` and `_csvImport`.  The groups have nodes of their own; the
  functions write to and read from a `GWEN_FAST_BUFFER` of 512 bytes. -/

namespace Gwenhywfar

/-- What the group `columns` holds under the number of a column: nothing, the name of a variable,
or a group for the parts of the column. -/
inductive CsvColumn where
  | missing
  | name (vcol : CString)
  | fields (delimiter : Option CString) (columns : List CsvColumn)

/-- The configuration: the columns from number 1 on, if there is a group for them, and the first
values of the other variables, if there are any; of `width` all values. -/
structure CsvConfig where
  columns : Option (List CsvColumn)
  delimiter : Option CString
  quote : Option Int32
  group : Option CString
  title : Option Int32
  fixedWidth : Option Int32
  condense : Option Int32
  ignoreLines : Option Int32
  width : List Int32

namespace Csv

open FastWriter Text Db

/-- A string of the source. -/
def str (s : List Char) : CString := CString.ofBytes (ascii s)

/-- The character between columns. -/
def delimiterOf (cfg : CsvConfig) : UInt8 :=
  let p := cfg.delimiter.getD (str [';'])
  if strcaseEq p (str ['T', 'A', 'B']) then 9
  else if strcaseEq p (str ['S', 'P', 'A', 'C', 'E']) then 32
  else p.bytes.headD 0

/-! ### Export -/

/-- `_getNameAndIndex`: the index or -1, and the name. -/
def getNameAndIndex (name : List UInt8) (size : ℕ) : Int32 × List UInt8 :=
  let buffer := name.takeWhile (· != code '[')
  if size ≤ buffer.length then (-1, buffer.take size)
  else
    match name.drop buffer.length with
    | [] => (0, buffer)
    | _ :: rest =>
        let number := rest.takeWhile (· != code ']')
        if 16 ≤ number.length then (-1, buffer) else ((scanInt number).getD 0, buffer)

/-- A byte that is only written when `wanted`. -/
def writeByteIf (wanted : Bool) (c : UInt8) (rest : FastWriter → ℤ × FastWriter) (fb : FastWriter) :
    ℤ × FastWriter :=
  if wanted then check (fb.writeByte c) id rest else rest fb

def writeColumn (cfg : CsvConfig) (first : Bool) (value : List UInt8)
    (rest : FastWriter → ℤ × FastWriter) : FastWriter → ℤ × FastWriter :=
  let quote := cfg.quote.getD 1 != 0
  writeByteIf (!first) (delimiterOf cfg) <|
  writeByteIf quote Words.quote fun fb =>
  check (fb.writeForced value) id <|
  writeByteIf quote Words.quote rest

def titleName (idx : Int32) (name : List UInt8) : List UInt8 :=
  (if idx = 0 then name else name ++ printInt idx).map fun c => if c = code '/' then code '_' else c

def writeTitle (cfg : CsvConfig) (rest : FastWriter → ℤ × FastWriter) :
    (first : Bool) → List CsvColumn → FastWriter → ℤ × FastWriter
  | first, .name p :: columns =>
      let (idx, name) := getNameAndIndex p.bytes 64
      if idx = -1 then fun fb => (errorGeneric, fb)
      else if idx ≠ 0 ∧ 64 ≤ name.length + (printInt idx).length + 1 then fun fb => (-1, fb)
      else writeColumn cfg first (titleName idx name) (writeTitle cfg rest false columns)
  | _, _ => fun fb => check (fb.writeLine []) id rest

/-- The value with an index of a variable, as `GWEN_DB_GetValue` finds it. -/
def valueAt (values : List DbValue) (idx : Int32) : Option DbValue :=
  if idx.toInt < 0 then none else values[idx.toInt.toNat]?

/-- The text of a value of a group: that of a char value or of an int value; other values and
missing ones are empty. -/
def columnText (n : DbHeap) (idx : Int32) (name : List UInt8) : List UInt8 :=
  match (resolve n 0 (CString.ofBytes name)).bind fun v => valueAt (values n v) idx with
  | some (.char dataChar) => dataChar.bytes
  | some (.int dataInt) => printInt dataInt
  | _ => []

def writeGroup (cfg : CsvConfig) (n : DbHeap) (rest : FastWriter → ℤ × FastWriter) :
    (first : Bool) → List CsvColumn → FastWriter → ℤ × FastWriter
  | first, .name p :: columns =>
      let (idx, name) := getNameAndIndex p.bytes 64
      if idx = -1 then fun fb => (errorGeneric, fb)
      else writeColumn cfg first (columnText n idx name) (writeGroup cfg n rest false columns)
  | _, _ => fun fb => check (fb.writeLine []) id rest

def writeGroups (cfg : CsvConfig) (columns : List CsvColumn) : List DbHeap → FastWriter →
    ℤ × FastWriter
  | [] => fun fb => check fb.flush id fun fb => (0, fb)
  | n :: data =>
      let groupName := cfg.group.getD (str [])
      if groupName.bytes = [] ∨ strcaseEq groupName (n.node 0).dataName = true then
        writeGroup cfg n (writeGroups cfg columns data) true columns
      else writeGroups cfg columns data

/-- `_csvExport`. -/
def csvExport (cfg : CsvConfig) (data : List DbHeap) (fb : FastWriter) : ℤ × FastWriter :=
  match cfg.columns with
  | none => (errorInvalid, fb)
  | some columns =>
      if cfg.title.getD 1 ≠ 0 then
        writeTitle cfg (writeGroups cfg columns data) true columns fb
      else writeGroups cfg columns data fb

/-! ### Import -/

def splitFlags : UInt32 :=
  Words.flagsDelLeadingBlanks ||| Words.flagsDelTrailingBlanks ||| Words.flagsNullIsDelimiter |||
    Words.flagsDelQuotes

/-- The loop of `_splitFixedWithStringIntoStringlist`. -/
def splitFixedLoop (condense : Bool) : List Int32 → List UInt8 → List (List UInt8)
  | [], _ => []
  | w :: width, s =>
      let w := min w.toInt s.length
      if w < 1 then []
      else
        let t := s.take w.toNat
        (if condense then t.rdropWhile fun c => c ≤ 32 else t) ::
          splitFixedLoop condense width (s.drop w.toNat)

/-- `_splitFixedWithStringIntoStringlist`. -/
def splitFixedWithStringIntoStringlist (s : List UInt8) (condense : Bool) (width : List Int32) :
    Option (List (List UInt8)) :=
  let sl := splitFixedLoop condense width s
  if sl = [] then none else some sl

mutual

/-- `_stringListToDb`. -/
def stringListToDb : List CsvColumn → List (List UInt8) → DbHeap → DbHeap
  | [], _, dbData => dbData
  | _ :: _, [], dbData => dbData
  | column :: columns, s :: sl, dbData => stringListToDb columns sl (columnToDb column s dbData)

def columnToDb : CsvColumn → List UInt8 → DbHeap → DbHeap
  | .missing, _, dbData => dbData
  | .name vcol, sColumn, dbData =>
      let vcol := CString.ofBytes (vcol.bytes.takeWhile (· != code '['))
      (setCharValue dbData 0 flagsDefault vcol (CString.ofBytes sColumn)).2
  | .fields delimiter columns, sColumn, dbData =>
      match Words.fromString2 sColumn (delimiter.getD (str ['/'])).bytes splitFlags with
      | none => dbData
      | some sl => stringListToDb columns sl dbData

end

def lineToGroup (cfg : CsvConfig) (columns : List CsvColumn) (s : List UInt8) : Option DbHeap :=
  (if cfg.fixedWidth.getD 0 ≠ 0 then
      splitFixedWithStringIntoStringlist s (cfg.condense.getD 0 != 0) cfg.width
    else Words.fromString2 s [delimiterOf cfg] splitFlags).map fun sl =>
    stringListToDb columns sl (emptyGroup (cfg.group.getD (str ['l', 'i', 'n', 'e'])))

def ignoredLines (cfg : CsvConfig) : ℤ :=
  (cfg.ignoreLines.getD 0).toInt + if cfg.title.getD 1 ≠ 0 then 1 else 0

/-- The loop over the lines, in at most so many rounds. -/
def importLoop (cfg : CsvConfig) (columns : List CsvColumn) : ℕ → (lines : ℤ) → FastReader →
    List DbHeap → ℤ × List DbHeap
  | 0, _, _, data => (0, data)
  | k + 1, lines, fb, data =>
      let (err, s, fb) := fb.readLineToBuffer []
      if err < 0 then (if err = errorEof then 0 else err, data)
      else if lines < ignoredLines cfg then importLoop cfg columns k (lines + 1) fb data
      else
        importLoop cfg columns k (lines + 1) fb (data ++ (lineToGroup cfg columns s).toList)

def bytesOf : ReadResult → List UInt8
  | .data bytes => bytes
  | .failed _ => []

def linesBound (fb : FastReader) : ℕ :=
  fb.unread.length + fb.io.length + (fb.io.flatMap bytesOf).length

/-- `_csvImport`. -/
def csvImport (cfg : CsvConfig) (fb : FastReader) (data : List DbHeap) : ℤ × List DbHeap :=
  match cfg.columns with
  | none => (errorInvalid, data)
  | some columns => importLoop cfg columns (linesBound fb + 1) 0 fb data

end Csv
end Gwenhywfar
