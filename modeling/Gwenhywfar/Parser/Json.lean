import Gwenhywfar.Base.Error
import Gwenhywfar.Parser.Text

/-! # Reading JSON

* `JsonElem`: a `GWEN_JSON_ELEM` with its children, one after the other.
* `fromString`: `GWEN_JsonElement_fromString`.  The readers of objects, arrays and values call each
  other; a bound on the depth of the calls stands for the length of the text. -/

namespace Gwenhywfar

/-- The types of elements. -/
inductive JsonType where
  | unknown | key | null | bool | num | string | array | object
deriving DecidableEq

/-- The children of an element from one on. -/
inductive JsonNodes where
  | nil
  | elem (elementType : JsonType) (elementData : Option (List UInt8)) (children next : JsonNodes)
deriving DecidableEq

/-- `GWEN_JSON_ELEM`. -/
structure JsonElem where
  elementType : JsonType
  elementData : Option (List UInt8)
  children : JsonNodes
deriving DecidableEq

/-- Children and those behind them. -/
def JsonNodes.append : JsonNodes → JsonNodes → JsonNodes
  | nil, ns => ns
  | elem elementType elementData children next, ns =>
      elem elementType elementData children (next.append ns)

/-- `GWEN_JsonElement_Tree2_AddChild`, for the children of the element. -/
def JsonNodes.addChild (ns : JsonNodes) (e : JsonElem) : JsonNodes :=
  ns.append (elem e.elementType e.elementData e.children nil)

theorem JsonNodes.append_assoc (ns ms ls : JsonNodes) :
    (ns.append ms).append ls = ns.append (ms.append ls) := by
  induction ns with
  | nil => rfl
  | elem elementType elementData children next _ ih => rw [append, append, append, ih]

namespace Json

open Text

/-- `GWEN_JsonElement_new`, for an element without children; empty data are none. -/
def new (elementType : JsonType) (data : List UInt8) : JsonElem where
  elementType := elementType
  elementData := if data = [] then none else some data
  children := .nil

def quote : UInt8 := 0x22

/-- A character that ends a token without quotes. -/
def isStructural (c : UInt8) : Bool :=
  c == code ',' || c == code ':' || c == 0x7b || c == 0x7d || c == code '[' || c == code ']'

/-- `_readQuotedToken`: the token and what follows it; the flag tells an escaped character. -/
def readQuotedToken : Bool → List UInt8 → List UInt8 × List UInt8
  | _, [] => ([], [])
  | true, c :: s =>
      let (token, next) := readQuotedToken false s
      (c :: token, next)
  | false, c :: s =>
      if c = code '\\' then readQuotedToken true s
      else if c = quote then ([], c :: s)
      else
        let (token, next) := readQuotedToken false s
        (c :: token, next)

/-- `_readTokenUntilChar`. -/
def readTokenUntilChar (stop : UInt8) : Bool → List UInt8 → List UInt8 × List UInt8
  | _, [] => ([], [])
  | true, c :: s =>
      let (token, next) := readTokenUntilChar stop false s
      (c :: token, next)
  | false, c :: s =>
      if c = code '\\' then readTokenUntilChar stop true s
      else if c = stop ∨ isStructural c = true then ([], c :: s)
      else
        let (token, next) := readTokenUntilChar stop false s
        (if isCntrl c then token else c :: token, next)

/-- `_readKey`: the key and what follows the colon. -/
def readKey (s : List UInt8) : Except ℤ (List UInt8 × List UInt8) :=
  let s := s.dropWhile isSpace
  if s = [] then .error errorNoData
  else if s.head? ≠ some quote then .error errorBadData
  else
    let (token, s) := readQuotedToken false s.tail
    if token = [] then .error errorBadData
    else if s.head? ≠ some quote then .error errorBadData
    else
      let s := s.tail.dropWhile isSpace
      if s.head? ≠ some (code ':') then .error errorBadData else .ok (token, s.tail)

def typeOfToken (token : List UInt8) : JsonType :=
  let is (word : List Char) : Bool :=
    strcaseEq (CString.ofBytes token) (CString.ofBytes (ascii word))
  if token.head?.any fun c => c == code '-' || c == code '.' || isDigit c then .num
  else if is ['T', 'R', 'U', 'E'] || is ['F', 'A', 'L', 'S', 'E'] then .bool
  else if is ['N', 'U', 'L', 'L'] then .null
  else .unknown

/-- `_readSimpleValueAndReturnType`: the type, the token and what follows it. -/
def readSimpleValueAndReturnType (s : List UInt8) : Except ℤ (JsonType × List UInt8 × List UInt8) :=
  let s := s.dropWhile isSpace
  if s = [] then .error errorNoData
  else if s.head? = some quote then
    let (token, s) := readQuotedToken false s.tail
    if token = [] then .error errorBadData
    else if s.head? ≠ some quote then .error errorBadData
    else .ok (.string, token, s.tail)
  else
    let (token, s) := readTokenUntilChar 0 false s
    if token = [] then .error errorBadData else .ok (typeOfToken token, token, s)

mutual

/-- `_readValue`. -/
def readValue : ℕ → List UInt8 → Option (JsonElem × List UInt8)
  | 0, _ => none
  | k + 1, s =>
      let s := s.dropWhile isSpace
      if s.head? = some 0x7b then readObject k .nil s.tail
      else if s.head? = some (code '[') then readArray k .nil s.tail
      else
        match readSimpleValueAndReturnType s with
        | .error _ => none
        | .ok (elementType, token, s) => some (new elementType token, s)

/-- The loop of `_readObject` for an object that has these keys already. -/
def readObject : ℕ → JsonNodes → List UInt8 → Option (JsonElem × List UInt8)
  | 0, _, _ => none
  | k + 1, jeObject, s =>
      let s := s.dropWhile isSpace
      if s = [] then none
      else if s.head? = some 0x7d then some (⟨.object, none, jeObject⟩, s.tail)
      else
        match readKey s with
        | .error _ => none
        | .ok (token, s) =>
            match readValue k (s.dropWhile isSpace) with
            | none => none
            | some (jeValue, s) =>
                let jeKey := { new .key token with children := JsonNodes.nil.addChild jeValue }
                let s := s.dropWhile isSpace
                if s.head? = some (code ',') then readObject k (jeObject.addChild jeKey) s.tail
                else if s.head? = some 0x7d then
                  some (⟨.object, none, jeObject.addChild jeKey⟩, s.tail)
                else none

/-- The loop of `_readArray` for an array that has these elements already. -/
def readArray : ℕ → JsonNodes → List UInt8 → Option (JsonElem × List UInt8)
  | 0, _, _ => none
  | k + 1, jeArray, s =>
      let s := s.dropWhile isSpace
      if s = [] then none
      else if s.head? = some (code ']') then some (⟨.array, none, jeArray⟩, s.tail)
      else
        match readValue k s with
        | none => none
        | some (jeValue, s) =>
            let s := s.dropWhile isSpace
            if s.head? = some (code ',') then readArray k (jeArray.addChild jeValue) s.tail
            else if s.head? = some (code ']') then
              some (⟨.array, none, jeArray.addChild jeValue⟩, s.tail)
            else none

end

/-- `GWEN_JsonElement_fromString`; each call but that of an element of an array is preceded by a
character that was read. -/
def fromString (s : List UInt8) : Option JsonElem :=
  let s := s.dropWhile isSpace
  if s.head? = some 0x7b then (readObject (2 * s.length) .nil s.tail).map Prod.fst else none

end Json
end Gwenhywfar
