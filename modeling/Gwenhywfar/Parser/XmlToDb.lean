import Gwenhywfar.Parser.XmlDoc
import Gwenhywfar.Base.Error

/-! # Importing an XML document into a DB

`GWEN_Xml2Db` executes a schema, whose elements are commands.

* `XmlSchema`: the elements of a schema; what is not an element is skipped and left out.
* `XmlDestination`: what the commands do to the groups of the destination and to the temporary
  ones.  Nothing is assumed of it.
* `XmlToDb`: the state of the commander, with a log of the commands that were executed and of the
  paths that were looked up.
* The commands have the way paths are looked up as an argument: `XmlDoc.getNodeByXPath` is that of
  the code, `readOnly` looks at the document only.
* `fuel` bounds the rounds of the loop of `XmlForEvery`. -/

namespace Gwenhywfar

open Gwenhywfar.Path

/-- The elements of a schema below a node: the first one with its children, and the next ones. -/
inductive XmlSchema where
  | nil
  | tag (name : CString) (properties : List (CString × Option CString))
      (children next : XmlSchema)

/-- The operations on the destination, whose state holds the current groups. -/
structure XmlDestination (δ : Type) where
  /-- Creates a group in the current one, or in the current temporary one, and enters it. -/
  enterGroup : (temp : Bool) → CString → δ → δ
  /-- Goes back from the second state to the group of the first one; a temporary group is freed. -/
  leaveGroup : (temp : Bool) → δ → δ → δ
  /-- `GWEN_DB_ReplaceVars` with the variables of the current temporary group. -/
  replaceVars : CString → δ → Except ℤ CString
  /-- `_convertAndSetCharValue`, whose result is not used. -/
  setCharValue : (temp : Bool) → List (CString × Option CString) → CString → δ → δ

/-- A command that was executed, or a path that was looked up, at a node of the document. -/
inductive XmlEvent where
  | command (name : CString) (n : ℕ)
  | lookup (path : List UInt8) (flags : UInt32) (n : ℕ)
deriving DecidableEq

/-- `GWEN_XMLCMD_GXML`. -/
structure XmlToDb (δ : Type) where
  doc : XmlDoc
  stack : List ℕ
  current : ℕ
  db : δ
  log : List XmlEvent

/-- A command is `none` where the code fails an assertion or does not come to the end of a loop. -/
abbrev XmlHandler (δ : Type) := XmlToDb δ → Option (ℤ × XmlToDb δ)

/-- How a path is looked up from a node. -/
abbrev XmlLookup := List UInt8 → UInt32 → ℕ → XmlDoc → Option ℕ × XmlDoc

def readOnly : XmlLookup := fun path _ n doc => (XmlDoc.denoted path n doc, doc)

namespace XmlToDb

open XmlDoc

variable {δ : Type} (look : XmlLookup) (dest : XmlDestination δ) (fuel : ℕ)

/-! ### Steps of the commands -/

/-- The command returns. -/
def done (rv : ℤ) : XmlHandler δ := fun st => some (rv, st)

/-- The second command follows unless the first one fails. -/
def andThen (f g : XmlHandler δ) : XmlHandler δ := fun st =>
  (f st).bind fun r => if r.1 < 0 then some r else g r.2

/-- `GWEN_XmlCommander_HandleChildren`, when the command returns 0 afterwards. -/
def handleBody (body : XmlHandler δ) : XmlHandler δ := andThen body (done 0)

def withNode (path : List UInt8) (flags : UInt32) (k : Option ℕ → XmlHandler δ) : XmlHandler δ :=
  fun st =>
    let r := look path flags st.current st.doc
    k r.1 { st with doc := r.2, log := .lookup path flags st.current :: st.log }

/-- `GWEN_XmlCommanderGwenXml_EnterDocNode`. -/
def enterDocNode (n : ℕ) (st : XmlToDb δ) : XmlToDb δ :=
  { st with stack := st.current :: st.stack, current := n }

/-- `GWEN_XmlCommanderGwenXml_LeaveDocNode`, before the command returns. -/
def leaveDocNode (rv : ℤ) : XmlHandler δ := fun st =>
  match st.stack with
  | [] => none
  | n :: stack => some (rv, { st with stack := stack, current := n })

/-- The body is executed at another node, which is left afterwards; after an error it is left only
if this is done always. -/
def inDocNode (n : ℕ) (always : Bool) (body : XmlHandler δ) : XmlHandler δ := fun st =>
  (body (enterDocNode n st)).bind fun r =>
    if r.1 < 0 ∧ always = false then some r else leaveDocNode r.1 r.2

def nonEmpty (properties : List (CString × Option CString)) (name : CString) : Option CString :=
  (getProperty properties name).filter fun v => v.bytes ≠ []

def nameProperty : CString := CString.ofChars ['n', 'a', 'm', 'e']

def pathProperty : CString := CString.ofChars ['p', 'a', 't', 'h']

def valueProperty : CString := CString.ofChars ['v', 'a', 'l', 'u', 'e']

def patternProperty : CString := CString.ofChars ['p', 'a', 't', 't', 'e', 'r', 'n']

/-- `_getCharValueByPath`, which looks at a property when there is a `@` in the path and at the
data of an element otherwise. -/
def getCharValueByPath (path : CString) (k : Option CString → XmlHandler δ) : XmlHandler δ :=
  if code '@' ∈ path.bytes then
    let node := path.bytes.takeWhile (· != code '@')
    let property := CString.ofBytes (path.bytes.dropWhile (· != code '@')).tail
    if node = [] then fun st => k (getProperty (st.doc.node st.current).properties property) st
    else withNode look node flagsPathMustExist fun
      | none => k none
      | some n => fun st => k (getProperty (st.doc.node n).properties property) st
  else withNode look path.bytes 0 fun
    | none => k none
    | some n => fun st => k (st.doc.firstData n) st

/-! ### Commands -/

variable (properties : List (CString × Option CString)) (body : XmlHandler δ)

/-- `_handleXmlEnter`. -/
def handleXmlEnter : XmlHandler δ :=
  match getProperty properties pathProperty with
  | none => done errorInvalid
  | some path => withNode look path.bytes flagsPathMustExist fun
      | none => done errorInvalid
      | some n => inDocNode n false (handleBody body)

/-- The loop of `_handleXmlForEvery`, from a position among the children of `p` on. -/
def forEveryLoop (name : CString) (p : ℕ) : ℕ → ℕ → XmlHandler δ
  | 0, _ => fun _ => none
  | k + 1, i => fun st =>
      match st.doc.findTagFrom p name i with
      | none => done 0 st
      | some (j, n) => andThen (inDocNode n true body) (forEveryLoop name p k (j + 1)) st

/-- `_handleXmlForEvery`. -/
def handleXmlForEvery : XmlHandler δ :=
  match getProperty properties nameProperty with
  | none => done errorInvalid
  | some name => fun st => forEveryLoop body name st.current fuel 0 st

def createAndEnterGroup (temp : Bool) : XmlHandler δ :=
  match nonEmpty properties nameProperty with
  | none => done errorInvalid
  | some name => fun st =>
      (handleBody body { st with db := dest.enterGroup temp name st.db }).bind fun r =>
        some (r.1, { r.2 with db := dest.leaveGroup temp st.db r.2.db })

/-- `_handleDbCreateAndEnterGroup`. -/
def handleDbCreateAndEnterGroup : XmlHandler δ := createAndEnterGroup dest properties body false

/-- `_handleDbCreateAndEnterTempGroup`. -/
def handleDbCreateAndEnterTempGroup : XmlHandler δ := createAndEnterGroup dest properties body true

def setValue (temp : Bool) (value : Option CString) : XmlHandler δ := fun st =>
  match value.filter fun v => v.bytes ≠ [] with
  | none => some (0, st)
  | some v => some (0, { st with db := dest.setCharValue temp properties v st.db })

/-- `_handleDbSetCharValue_internal`. -/
def handleDbSetCharValueInternal (temp : Bool) : XmlHandler δ :=
  match nonEmpty properties nameProperty with
  | none => done errorInvalid
  | some _ =>
      match getProperty properties valueProperty with
      | some value => fun st =>
          match dest.replaceVars value st.db with
          | .error rv => done rv st
          | .ok v => setValue dest properties temp (some v) st
      | none =>
          match nonEmpty properties pathProperty with
          | none => done errorInvalid
          | some path => getCharValueByPath look path (setValue dest properties temp)

/-- `_handleDbSetCharValue`. -/
def handleDbSetCharValue : XmlHandler δ := handleDbSetCharValueInternal look dest properties false

/-- `_handleDbSetTempCharValue`. -/
def handleDbSetTempCharValue : XmlHandler δ :=
  handleDbSetCharValueInternal look dest properties true

def ifCharData (test : Option CString → Bool) : XmlHandler δ :=
  match nonEmpty properties pathProperty with
  | none => done errorInvalid
  | some path => getCharValueByPath look path fun value =>
      if test value then handleBody body else done 0

def ifCharDataMatches (expected : Bool) : XmlHandler δ :=
  match nonEmpty properties pathProperty, nonEmpty properties patternProperty with
  | none, _ => done errorInvalid
  | some _, none => done errorInvalid
  | some _, some pattern => ifCharData look properties body fun value =>
      (value.map fun v => comparePattern v pattern == expected).getD false

/-- `_handleXmlIfCharDataMatches`. -/
def handleXmlIfCharDataMatches : XmlHandler δ := ifCharDataMatches look properties body true

/-- `_handleXmlIfNotCharDataMatches`. -/
def handleXmlIfNotCharDataMatches : XmlHandler δ := ifCharDataMatches look properties body false

/-- `_handleXmlIfHasCharData`. -/
def handleXmlIfHasCharData : XmlHandler δ := ifCharData look properties body fun value =>
  (value.map fun v => decide (v.bytes ≠ [])).getD false

/-- `_handleXmlIfNotHasCharData`. -/
def handleXmlIfNotHasCharData : XmlHandler δ := ifCharData look properties body fun value =>
  !(value.map fun v => decide (v.bytes ≠ [])).getD false

def ifPathExists (expected : Bool) : XmlHandler δ :=
  match nonEmpty properties pathProperty with
  | none => done errorInvalid
  | some path => withNode look path.bytes flagsPathMustExist fun n =>
      if n.isSome = expected then handleBody body else done 0

/-- `_handleXmlIfPathExists`. -/
def handleXmlIfPathExists : XmlHandler δ := ifPathExists look properties body true

/-- `_handleXmlIfNotPathExists`. -/
def handleXmlIfNotPathExists : XmlHandler δ := ifPathExists look properties body false

/-! ### The interpreter -/

/-- The commands. -/
inductive Command where
  | xmlEnter
  | xmlForEvery
  | dbCreateAndEnterGroup
  | dbCreateAndEnterTempGroup
  | dbSetCharValue
  | dbSetTempCharValue
  | xmlIfCharDataMatches
  | xmlIfNotCharDataMatches
  | xmlIfHasCharData
  | xmlIfNotHasCharData
  | xmlIfPathExists
  | xmlIfNotPathExists
deriving DecidableEq

def commandNames : List (List Char × Command) :=
  [(['X', 'm', 'l', 'E', 'n', 't', 'e', 'r'], .xmlEnter),
   (['X', 'm', 'l', 'F', 'o', 'r', 'E', 'v', 'e', 'r', 'y'], .xmlForEvery),
   (['D', 'b', 'C', 'r', 'e', 'a', 't', 'e', 'A', 'n', 'd', 'E', 'n', 't', 'e', 'r', 'G', 'r', 'o',
     'u', 'p'], .dbCreateAndEnterGroup),
   (['D', 'b', 'C', 'r', 'e', 'a', 't', 'e', 'A', 'n', 'd', 'E', 'n', 't', 'e', 'r', 'T', 'e', 'm',
     'p', 'G', 'r', 'o', 'u', 'p'], .dbCreateAndEnterTempGroup),
   (['D', 'b', 'S', 'e', 't', 'C', 'h', 'a', 'r', 'V', 'a', 'l', 'u', 'e'], .dbSetCharValue),
   (['D', 'b', 'S', 'e', 't', 'T', 'e', 'm', 'p', 'C', 'h', 'a', 'r', 'V', 'a', 'l', 'u', 'e'],
     .dbSetTempCharValue),
   (['X', 'm', 'l', 'I', 'f', 'C', 'h', 'a', 'r', 'D', 'a', 't', 'a', 'M', 'a', 't', 'c', 'h', 'e',
     's'], .xmlIfCharDataMatches),
   (['X', 'm', 'l', 'I', 'f', 'N', 'o', 't', 'C', 'h', 'a', 'r', 'D', 'a', 't', 'a', 'M', 'a', 't',
     'c', 'h', 'e', 's'], .xmlIfNotCharDataMatches),
   (['X', 'm', 'l', 'I', 'f', 'H', 'a', 's', 'C', 'h', 'a', 'r', 'D', 'a', 't', 'a'],
     .xmlIfHasCharData),
   (['X', 'm', 'l', 'I', 'f', 'N', 'o', 't', 'H', 'a', 's', 'C', 'h', 'a', 'r', 'D', 'a', 't', 'a'],
     .xmlIfNotHasCharData),
   (['X', 'm', 'l', 'I', 'f', 'P', 'a', 't', 'h', 'E', 'x', 'i', 's', 't', 's'], .xmlIfPathExists),
   (['X', 'm', 'l', 'I', 'f', 'N', 'o', 't', 'P', 'a', 't', 'h', 'E', 'x', 'i', 's', 't', 's'],
     .xmlIfNotPathExists)]

def commandOf (name : CString) : Option Command :=
  (commandNames.find? fun c => strcaseEq name (CString.ofChars c.1)).map Prod.snd

def handleElement (command : Option Command) : XmlHandler δ :=
  match command with
  | none => done errorInvalid
  | some .xmlEnter => handleXmlEnter look properties body
  | some .xmlForEvery => handleXmlForEvery fuel properties body
  | some .dbCreateAndEnterGroup => handleDbCreateAndEnterGroup dest properties body
  | some .dbCreateAndEnterTempGroup => handleDbCreateAndEnterTempGroup dest properties body
  | some .dbSetCharValue => handleDbSetCharValue look dest properties
  | some .dbSetTempCharValue => handleDbSetTempCharValue look dest properties
  | some .xmlIfCharDataMatches => handleXmlIfCharDataMatches look properties body
  | some .xmlIfNotCharDataMatches => handleXmlIfNotCharDataMatches look properties body
  | some .xmlIfHasCharData => handleXmlIfHasCharData look properties body
  | some .xmlIfNotHasCharData => handleXmlIfNotHasCharData look properties body
  | some .xmlIfPathExists => handleXmlIfPathExists look properties body
  | some .xmlIfNotPathExists => handleXmlIfNotPathExists look properties body

/-- The state in which a command begins. -/
def logged (name : CString) (st : XmlToDb δ) : XmlToDb δ :=
  { st with log := .command name st.current :: st.log }

/-- `_handleChildren_toDb`. -/
def handleChildren : XmlSchema → XmlHandler δ
  | .nil => done 0
  | .tag name properties children next =>
      if name.bytes = [] then handleChildren next
      else andThen (fun st => handleElement look dest fuel properties (handleChildren children)
        (commandOf name) (logged name st)) (handleChildren next)

/-- `GWEN_Xml2Db`, with the document node that is the first current one. -/
def xml2Db (doc : XmlDoc) (root : ℕ) (schema : XmlSchema) (db : δ) : Option (ℤ × XmlToDb δ) :=
  handleChildren look dest fuel schema ⟨doc, [], root, db, []⟩

end XmlToDb
end Gwenhywfar
