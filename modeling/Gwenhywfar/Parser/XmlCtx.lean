import Gwenhywfar.Base.Error
import Gwenhywfar.Parser.Text

/-! # The context that stores XML

* `XmlCtx`: of the tree only the names of the open nodes are kept, of a header only its name, as
  the functions look at nothing else.
* `startTag`, `endTag`, `addAttr`, `addData`: the functions that `GWEN_XmlCtxStore_new` sets.
* `XmlM`: the functions have a state, the context with the bytes of the stream that are still to
  come; they return an error or succeed. -/

namespace Gwenhywfar

/-- `GWEN_XML_CONTEXT`; `nodes` are the current node, if there is one, and its ancestors, from the
inside out, each with its name if it has one. -/
structure XmlCtx where
  flags : UInt32
  encoding : Option CString
  nodes : List (Option CString)
  depth : ℕ
  finishedElements : ℕ
  currentHeader : Option CString
deriving DecidableEq

/-- A context and the bytes of the stream. -/
structure XmlState where
  ctx : XmlCtx
  rest : List UInt8
deriving DecidableEq

/-- A function that returns 0 or a value, or an error. -/
abbrev XmlM := EStateM ℤ XmlState

namespace Xml

open Text

/-- A string of the source. -/
def str (s : List Char) : CString := CString.ofBytes (ascii s)

/-- `GWEN_XML_FLAGS_HANDLE_HEADERS`. -/
def flagsHandleHeaders : UInt32 := 0x0080

/-- `GWEN_XML_FLAGS_TOLERANT_ENDTAGS`. -/
def flagsTolerantEndtags : UInt32 := 0x0100

/-- The flags have a bit of `mask`. -/
def has (flags mask : UInt32) : Bool := flags &&& mask != 0

/-- `GWEN_XmlCtxStore_new`. -/
def newCtx (nodes : List (Option CString)) (flags : UInt32) : XmlCtx where
  flags := flags
  encoding := none
  nodes := nodes
  depth := 0
  finishedElements := 0
  currentHeader := none

/-- A name is equal to another one up to case. -/
def hasName (name : CString) (node : Option CString) : Bool := node.any fun s => strcaseEq s name

/-- The loop of `_findTagForClosingTagAndcloseAndMoveSubTags` over the ancestors of a node. -/
def closeAncestors (name : CString) : (ancestors : List (Option CString)) → (depth : ℕ) →
    Option (List (Option CString) × ℕ)
  | [], _ => none
  | node :: ancestors, depth =>
      if hasName name node then
        if ancestors = [] then none else some (ancestors, depth - 1 - 1)
      else closeAncestors name ancestors (depth - 1)

/-- `GWEN_XmlCtxStore_StartTag`. -/
def storeStartTag (ctx : XmlCtx) (tagName : CString) : Except ℤ XmlCtx :=
  match ctx.nodes with
  | [] => .error errorInvalid
  | s :: parents =>
      if tagName.bytes.head? = some (code '?') ∧ has ctx.flags flagsHandleHeaders = true then
        .ok { ctx with currentHeader := some tagName }
      else if strcaseEq tagName (str ['!', 'D', 'O', 'C', 'T', 'Y', 'P', 'E']) then
        .ok { ctx with currentHeader := some tagName }
      else if tagName.bytes.head? = some (code '/') then
        let tagName := CString.ofBytes tagName.bytes.tail
        if s = none then .error errorBadData
        else if hasName tagName s then
          if parents = [] then .error errorBadData
          else .ok { ctx with
            nodes := parents
            depth := ctx.depth - 1
            finishedElements := ctx.finishedElements + 1 }
        else if has ctx.flags flagsTolerantEndtags then
          match closeAncestors tagName parents ctx.depth with
          | none => .error errorBadData
          | some (nodes, depth) => .ok { ctx with
              nodes := nodes
              depth := depth
              finishedElements := ctx.finishedElements + 1 }
        else .error errorBadData
      else .ok { ctx with nodes := some tagName :: ctx.nodes, depth := ctx.depth + 1 }

/-- `GWEN_XmlCtxStore_EndTag`. -/
def storeEndTag (ctx : XmlCtx) (closing : Bool) : Except ℤ XmlCtx :=
  if ctx.currentHeader ≠ none then .ok { ctx with currentHeader := none }
  else
    match ctx.nodes with
    | [] => .error errorInvalid
    | _ :: parents =>
        if closing then
          if parents = [] then .error errorBadData
          else .ok { ctx with
            nodes := parents
            depth := ctx.depth - 1
            finishedElements := ctx.finishedElements + 1 }
        else .ok ctx

/-- `GWEN_XmlCtxStore_AddAttr`; a header `?xml` has a value for its attribute `encoding`. -/
def storeAddAttr (ctx : XmlCtx) (attrName : CString) (attrData : Option CString) :
    Except ℤ XmlCtx :=
  match ctx.currentHeader with
  | some header =>
      if header = str ['?', 'x', 'm', 'l'] ∧
          attrName = str ['e', 'n', 'c', 'o', 'd', 'i', 'n', 'g'] then
        .ok { ctx with
          encoding :=
            if (attrData.map (strcaseEq · (str ['U', 'T', 'F', '-', '8']))).getD false then none
            else attrData }
      else .ok ctx
  | none => if ctx.nodes = [] then .error errorInvalid else .ok ctx

/-- `GWEN_XmlCtxStore_AddData`. -/
def storeAddData (ctx : XmlCtx) : Except ℤ XmlCtx :=
  if ctx.nodes = [] then .error errorInvalid else .ok ctx

/-- A function of the context. -/
def onCtx (f : XmlCtx → Except ℤ XmlCtx) : XmlM Unit := fun st =>
  match f st.ctx with
  | .ok ctx => .ok () { st with ctx := ctx }
  | .error rv => .error rv st

/-! ### The stream -/

/-- `GWEN_FASTBUFFER_PEEKBYTE`. -/
def peekByte : XmlM UInt8 := fun st =>
  match st.rest with
  | [] => .error errorEof st
  | c :: _ => .ok c st

/-- Goes on behind the character that was peeked at. -/
def skipByte : XmlM Unit := fun st => .ok () { st with rest := st.rest.tail }

/-- Bytes that a loop reads from the stream, which may end before the loop does. -/
def scan {α : Type} (f : List UInt8 → Option (α × List UInt8)) : XmlM α := fun st =>
  match f st.rest with
  | none => .error errorEof { st with rest := [] }
  | some (a, rest) => .ok a { st with rest := rest }

end Xml
end Gwenhywfar
