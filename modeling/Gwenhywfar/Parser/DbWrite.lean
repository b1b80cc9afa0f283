import Gwenhywfar.Base.FastBufferWrite
import Gwenhywfar.Parser.DbNodes

/-! # Writing a `GWEN_DB`

The functions of `dbrw.c` that write a tree.  They take the rest of the function as an argument,
which is left out when the function returns early.

* The texts of names and values are written in full, so that converting a value does not fail. -/

namespace Gwenhywfar.Db

open FastWriter Text

/-- The bytes that `GWEN_DB_EscapeToBufferTolerant` leaves alone. -/
def isToleratedInName (c : UInt8) : Bool :=
  isAlnum c || c ∈ ascii ['%', '.', ',', '_', '-', '*', '?']

/-- `GWEN_DB_EscapeToBufferTolerant`. -/
def escapeToBufferTolerant (src : List UInt8) : List UInt8 :=
  escapeWith (code '&') isToleratedInName src

def valueText (dbflags : UInt32) : DbValue → Option (List UInt8 × List UInt8)
  | .char s => some (ascii ['c', 'h', 'a', 'r', ' '],
      if has dbflags flagsEscapeCharvalues then Text.escapeToBufferTolerant s.bytes else s.bytes)
  | .int i => some (ascii ['i', 'n', 't', ' ', ' '], printInt i)
  | .bin b => some (ascii ['b', 'i', 'n', ' ', ' '], toHex b)
  | .ptr _ => none

/-- The character `"`. -/
def quotationMark : UInt8 := 0x22

/-- `return 1` after an error. -/
def one (_ : ℤ) : ℤ := 1

def writeBlanks (ret : ℤ → ℤ) (rest : FastWriter → ℤ × FastWriter) :
    ℕ → FastWriter → ℤ × FastWriter
  | 0, fb => rest fb
  | n + 1, fb => check (fb.writeByte (code ' ')) ret (writeBlanks ret rest n)

/-- The blanks before a line, if they are wanted. -/
def writeIndend (dbflags : UInt32) (insert : ℕ) (ret : ℤ → ℤ) (rest : FastWriter → ℤ × FastWriter)
    (fb : FastWriter) : ℤ × FastWriter :=
  if has dbflags flagsIndend then writeBlanks ret rest insert fb else rest fb

/-- A byte that is only written when `wanted`. -/
def writeByteIf (wanted : Bool) (c : UInt8) (ret : ℤ → ℤ) (rest : FastWriter → ℤ × FastWriter)
    (fb : FastWriter) : ℤ × FastWriter :=
  if wanted then check (fb.writeByte c) ret rest else rest fb

/-- Bytes that are only written when `wanted`. -/
def writeForcedIf (wanted : Bool) (p : List UInt8) (ret : ℤ → ℤ)
    (rest : FastWriter → ℤ × FastWriter) (fb : FastWriter) : ℤ × FastWriter :=
  if wanted then check (fb.writeForced p) ret rest else rest fb

/-- An empty line that is only written when `wanted`. -/
def writeLineIf (wanted : Bool) (ret : ℤ → ℤ) (rest : FastWriter → ℤ × FastWriter)
    (fb : FastWriter) : ℤ × FastWriter :=
  if wanted then check (fb.writeLine []) ret rest else rest fb

/-- The begin of a variable's line up to the equation mark. -/
def writeVarName (dbflags : UInt32) (insert : ℕ) (typname name : List UInt8)
    (rest : FastWriter → ℤ × FastWriter) : FastWriter → ℤ × FastWriter :=
  writeIndend dbflags insert one <|
  writeForcedIf (!has dbflags flagsOmitTypes) typname one <|
  writeByteIf (has dbflags flagsQuoteVarnames) quotationMark one fun fb =>
  check (fb.writeForced name) one <|
  writeByteIf (has dbflags flagsQuoteVarnames) quotationMark one fun fb =>
  check (fb.writeForced (if has dbflags flagsUseColon then ascii [':', ' '] else ascii ['='])) one rest

def writeValues (dbflags : UInt32) (insert : ℕ) (name : List UInt8)
    (rest : FastWriter → ℤ × FastWriter) : (namewritten : Bool) → List DbValue →
    FastWriter → ℤ × FastWriter
  | namewritten, [] => writeLineIf namewritten (fun _ => errorGeneric) rest
  | namewritten, v :: values =>
      match valueText dbflags v with
      | none => writeValues dbflags insert name rest namewritten values
      | some (typname, pvalue) =>
          let value : FastWriter → ℤ × FastWriter :=
            writeForcedIf namewritten (ascii [',', ' ']) one <|
            writeByteIf (has dbflags flagsQuoteValues) quotationMark one fun fb =>
            check (fb.writeForced pvalue) one <|
            writeByteIf (has dbflags flagsQuoteValues) quotationMark one <|
            writeValues dbflags insert name rest true values
          if namewritten then value else writeVarName dbflags insert typname name value

def writeGroupEnd (dbflags : UInt32) (name : List UInt8) (rest : FastWriter → ℤ × FastWriter)
    (fb : FastWriter) : ℤ × FastWriter :=
  if has dbflags flagsDetailedGroups then
    check (fb.writeForced (ascii ['}', ' ', '#'])) id fun fb => check (fb.writeLine name) id rest
  else check (fb.writeLine (ascii ['}'])) id rest

/-- `GWEN_DB_WriteGroupToIoLayer` from a child on. -/
def writeGroupToIoLayer (dbflags : UInt32) : DbNodes → (insert : ℕ) → (lastWasVar : Bool) →
    FastWriter → ℤ × FastWriter
  | .nil, _, _, fb => (0, fb)
  | .group nodeFlags name children next, insert, lastWasVar, fb =>
      if has nodeFlags nodeFlagsVolatile then
        writeGroupToIoLayer dbflags next insert lastWasVar fb
      else if has dbflags flagsWriteSubgroups then
        -- only insert newline if the last one before this group was a variable
        (writeLineIf (has dbflags flagsAddGroupNewlines && lastWasVar) id <|
        writeIndend dbflags insert id fun fb =>
        check (fb.writeForced (escapeToBufferTolerant name.bytes)) id fun fb =>
        check (fb.writeLine (ascii [' ', '{'])) id fun fb =>
        check (writeGroupToIoLayer dbflags children (insert + 2) false fb) id <|
        writeIndend dbflags insert id <|
        writeGroupEnd dbflags name.bytes <|
        -- only insert newline if something is following on the same level
        writeLineIf (has dbflags flagsAddGroupNewlines && next != .nil) id <|
        writeGroupToIoLayer dbflags next insert false) fb
      else writeGroupToIoLayer dbflags next insert false fb
  | .var nodeFlags name values next, insert, lastWasVar, fb =>
      if has nodeFlags nodeFlagsVolatile then
        writeGroupToIoLayer dbflags next insert lastWasVar fb
      else
        writeValues dbflags insert name.bytes (writeGroupToIoLayer dbflags next insert true) false
          values fb

/-- `GWEN_DB_WriteToIo` for a group with these children. -/
def writeToIo (children : DbNodes) (io : WriteIo) (dbflags : UInt32) : ℤ × WriteIo :=
  let fb := FastWriter.new 512 io
  let fb := if has dbflags flagsDosMode then fb.addFlags FastWriter.flagsDosMode else fb
  let (rv, fb) := writeGroupToIoLayer dbflags children 0 false fb
  if rv < 0 then (rv, fb.io)
  else
    let (rv, fb) := fb.flush
    (rv, fb.io)

/-- `GWEN_DB_WriteToBuffer`: the io appends to the buffer. -/
def writeToBuffer (children : DbNodes) (buf : List UInt8) (dbflags : UInt32) : ℤ × List UInt8 :=
  let (rv, io) := writeToIo children ⟨fun _ => .done, 0, buf⟩ dbflags
  (if rv < 0 then rv else 0, io.sink)
end Gwenhywfar.Db
