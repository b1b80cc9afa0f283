import Gwenhywfar.Base.Error
import Gwenhywfar.Parser.DbValueSet

/-! # A `GWEN_DB` with the flags of its nodes

* `DbTree`: the nodes of `DbHeap`, and their flags.
* The functions are those of `DbHeap` with `GWEN_DB_ModifyBranchFlagsUp` where the source calls it.
  Loops along the parents of a node and down a tree have a bound for their rounds. -/

namespace Gwenhywfar

/-- The nodes and their flags. -/
structure DbTree where
  heap : DbHeap
  nodeFlags : ℕ → UInt32

namespace DbTree

open Db Gwenhywfar.Path Text

/-! ### Nodes -/

/-- The loop of `GWEN_DB_ModifyBranchFlagsUp`. -/
def modifyLoop (newflags mask : UInt32) : ℕ → DbTree → ℕ → DbTree
  | 0, t, _ => t
  | k + 1, t, n =>
      let flags := t.nodeFlags n
      let t := { t with
        nodeFlags := Function.update t.nodeFlags n (((flags ^^^ newflags) &&& mask) ^^^ flags) }
      match (t.heap.node n).parent with
      | none => t
      | some parent => modifyLoop newflags mask k t parent

/-- `GWEN_DB_ModifyBranchFlagsUp`. -/
def modifyBranchFlagsUp (t : DbTree) (n : ℕ) (newflags mask : UInt32) : DbTree :=
  modifyLoop newflags mask (t.heap.size + 1) t n

/-- `GWEN_DB_Node_new`; the node has no flags. -/
def newNode (t : DbTree) (typ : DbNodeType) (name : CString) : DbTree where
  heap := Db.newNode t.heap typ name
  nodeFlags := Function.update t.nodeFlags t.heap.size 0

/-- `GWEN_DB_Node_Append_UnDirty`. -/
def nodeAppendUnDirty (t : DbTree) (parent n : ℕ) : DbTree :=
  { t with heap := Db.nodeAppend t.heap parent n }

/-- `GWEN_DB_Node_InsertUnDirty`. -/
def nodeInsertUnDirty (t : DbTree) (parent n : ℕ) : DbTree :=
  { t with heap := Db.nodeInsert t.heap parent n }

/-- `GWEN_DB_Node_Append`. -/
def nodeAppend (t : DbTree) (parent n : ℕ) : DbTree :=
  modifyBranchFlagsUp (t.nodeAppendUnDirty parent n) parent nodeFlagsDirty nodeFlagsDirty

/-- `GWEN_DB_Node_Insert`. -/
def nodeInsert (t : DbTree) (parent n : ℕ) : DbTree :=
  modifyBranchFlagsUp (t.nodeInsertUnDirty parent n) parent nodeFlagsDirty nodeFlagsDirty

def nodeAdd (flags : UInt32) (t : DbTree) (parent n : ℕ) : DbTree :=
  if has flags flagsInsert then t.nodeInsert parent n else t.nodeAppend parent n

/-- `GWEN_DB_Node_Unlink_UnDirty` for a child of a node. -/
def nodeUnlinkUnDirty (t : DbTree) (parent n : ℕ) : DbTree :=
  let h := setChildren t.heap parent ((t.heap.node parent).children.erase n)
  { t with heap := { h with node := Function.update h.node n { h.node n with parent := none } } }

/-- `GWEN_DB_Node_Unlink`; the node must have a parent. -/
def nodeUnlink (t : DbTree) (n : ℕ) : Option DbTree :=
  (t.heap.node n).parent.map fun parent =>
    modifyBranchFlagsUp (t.nodeUnlinkUnDirty parent n) parent nodeFlagsDirty nodeFlagsDirty

/-- `GWEN_DB_ClearNode`. -/
def clearNode (t : DbTree) (n : ℕ) : DbTree := { t with heap := Db.clearNode t.heap n }

/-- `GWEN_DB_Node_dup`, with at most so many levels below each other.  The copy is the next node. -/
def nodeDup : ℕ → DbTree → ℕ → DbTree
  | 0, t, n => t.newNode (t.heap.node n).typ (t.heap.node n).dataName
  | k + 1, t, n =>
      (t.heap.node n).children.foldl (fun u cn =>
          (nodeDup k u cn).nodeAppendUnDirty t.heap.size u.heap.size)
        (t.newNode (t.heap.node n).typ (t.heap.node n).dataName)

/-! ### Paths -/

def createNode (flags : UInt32) (t : DbTree) (n : ℕ) (name : CString) : DbTree :=
  nodeAdd flags (t.newNode (if has flags flagsVariable then .var else .group) name) n t.heap.size

/-- `GWEN_DB_HandlePath`. -/
def handlePath (entry : List UInt8) (n : ℕ) (idx : Int32) (flags : UInt32) (t : DbTree) :
    Option ℕ × DbTree :=
  let name := CString.ofBytes entry
  if has flags flagsLast && (has flags flagsVariable && has flags flagsCreateVar ||
      !has flags flagsVariable && has flags flagsCreateGroup) ||
      !has flags flagsLast && has flags flagsPathCreate then
    if idx ≠ 0 then (none, t) else (some t.heap.size, createNode flags t n name)
  else
    match if has flags flagsVariable then findVar t.heap n name idx
      else findGroup t.heap n name idx with
    | none =>
        if !has flags flagsLast && has flags flagsPathMustExist || has flags flagsNameMustExist then
          (none, t)
        else if idx ≠ 0 then (none, t)
        else (some t.heap.size, createNode flags t n name)
    | some nn =>
        if has flags flagsLast && has flags flagsNameMustNotExist ||
            !has flags flagsLast && has flags flagsPathMustNotExist then (none, t)
        else (some nn, t)

/-- `GWEN_DB_GetNode`. -/
def getNode (t : DbTree) (n : ℕ) (path : CString) (flags : UInt32) : Option ℕ × DbTree :=
  handleWithIdx handlePath flags path.bytes n t

/-! ### Changing a tree -/

/-- `GWEN_DB_SetCharValue`, `GWEN_DB_SetIntValue`, `GWEN_DB_SetBinValue` and
`GWEN_DB_SetPtrValue`. -/
def setValue (t : DbTree) (n : ℕ) (flags : UInt32) (path : CString) (val : DbValue) : ℤ × DbTree :=
  match t.getNode n path (flags ||| flagsVariable) with
  | (none, t) => (1, t)
  | (some nn, t) =>
      let nv := t.heap.size
      let t := t.newNode (.value val) (CString.ofBytes [])
      let t := if has flags flagsOverwriteVars then t.clearNode nn else t
      (0, nodeAdd flags t nn nv)

/-- `GWEN_DB_AddCharValue`. -/
def addCharValue (t : DbTree) (n : ℕ) (path val : CString) (senseCase check : Bool) : ℤ × DbTree :=
  match t.getNode n path (flagsDefault ||| flagsVariable) with
  | (none, t) => (-1, t)
  | (some nn, t) =>
      if check ∧ (matchingValue t.heap n val senseCase).isSome then (1, t)
      else (0, (t.newNode (.value (.char val)) (CString.ofBytes [])).nodeAppend nn t.heap.size)

def groupFlags : UInt32 := flagsPathMustExist ||| flagsNameMustExist

/-- `GWEN_DB_DeleteVar` and `GWEN_DB_DeleteGroup`, which differ in the flags. -/
def deleteNode (flags : UInt32) (t : DbTree) (n : ℕ) (path : CString) : Option (ℤ × DbTree) :=
  match t.getNode n path flags with
  | (none, t) => some (1, t)
  | (some nn, t) => (t.nodeUnlink nn).map fun t => (0, t)

/-- `GWEN_DB_DeleteVar`. -/
def deleteVar : DbTree → ℕ → CString → Option (ℤ × DbTree) := deleteNode lookupFlags

/-- `GWEN_DB_DeleteGroup`. -/
def deleteGroup : DbTree → ℕ → CString → Option (ℤ × DbTree) := deleteNode groupFlags

/-- `GWEN_DB_ClearGroup`. -/
def clearGroup (t : DbTree) (n : ℕ) (path : Option CString) : ℤ × DbTree :=
  match path with
  | some path =>
      match t.getNode n path groupFlags with
      | (none, t) => (1, t)
      | (some nn, t) => (0, t.clearNode nn)
  | none => (0, t.clearNode n)

/-- `GWEN_DB_AddGroup`. -/
def addGroup (t : DbTree) (n nn : ℕ) : ℤ × DbTree :=
  if (t.heap.node n).typ = .group ∧ (t.heap.node nn).typ = .group then (0, t.nodeAppend n nn)
  else (0, t)

/-- `GWEN_DB_InsertGroup`. -/
def insertGroup (t : DbTree) (n nn : ℕ) : ℤ × DbTree :=
  if (t.heap.node n).typ = .group ∧ (t.heap.node nn).typ = .group then (0, t.nodeInsert n nn)
  else (0, t)

/-- `GWEN_DB_AddGroupChildren`, which does not return when the children of a group are added to
the group itself. -/
def addGroupChildren (t : DbTree) (n nn : ℕ) : Option (ℤ × DbTree) :=
  if (t.heap.node n).typ = .group ∧ (t.heap.node nn).typ = .group then
    if n = nn ∧ (t.heap.node nn).children ≠ [] then none
    else some (0, (t.heap.node nn).children.foldl (fun u cn =>
      (nodeDup (u.heap.size + 1) u cn).nodeAppend n u.heap.size) t)
  else some (-1, t)

/-- `GWEN_DB_UnlinkGroup`. -/
def unlinkGroup (t : DbTree) (n : ℕ) : Option DbTree :=
  if (t.heap.node n).typ = .group then t.nodeUnlink n else some t

/-- Assigns the type of a node, with the data of a value. -/
def setTyp (t : DbTree) (n : ℕ) (typ : DbNodeType) : DbTree :=
  { t with heap := { t.heap with
    node := Function.update t.heap.node n { t.heap.node n with typ := typ } } }

def setName (t : DbTree) (n : ℕ) (name : CString) : DbTree :=
  { t with heap := { t.heap with
    node := Function.update t.heap.node n { t.heap.node n with dataName := name } } }

/-- `GWEN_DB_SetCharValueInNode`. -/
def setCharValueInNode (t : DbTree) (n : ℕ) (s : CString) : ℤ × DbTree :=
  match (t.heap.node n).typ with
  | .value (.char _) => (0, t.setTyp n (.value (.char s)))
  | _ => (errorInvalid, t)

/-- `GWEN_DB_GroupRename`; the node must be a group. -/
def groupRename (t : DbTree) (n : ℕ) (newname : CString) : Option DbTree :=
  if (t.heap.node n).typ = .group then some (t.setName n newname) else none

/-- `GWEN_DB_VariableRename`; the node must be a variable. -/
def variableRename (t : DbTree) (n : ℕ) (newname : CString) : Option DbTree :=
  if (t.heap.node n).typ = .var then some (t.setName n newname) else none

/-! ### Calls -/

/-- The calls that change a tree. -/
inductive Call where
  | setValue (flags : UInt32) (path : CString) (val : DbValue)
  | addCharValue (path val : CString) (senseCase check : Bool)
  | deleteVar (path : CString)
  | deleteGroup (path : CString)
  | clearGroup (path : Option CString)
  | addGroup (nn : ℕ)
  | insertGroup (nn : ℕ)
  | addGroupChildren (nn : ℕ)
  | unlinkGroup
  | setCharValueInNode (s : CString)
  | groupRename (newname : CString)
  | variableRename (newname : CString)

def run (t : DbTree) (n : ℕ) : Call → Option DbTree
  | .setValue flags path val => some (t.setValue n flags path val).2
  | .addCharValue path val senseCase check => some (t.addCharValue n path val senseCase check).2
  | .deleteVar path => (t.deleteVar n path).map Prod.snd
  | .deleteGroup path => (t.deleteGroup n path).map Prod.snd
  | .clearGroup path => some (t.clearGroup n path).2
  | .addGroup nn => some (t.addGroup n nn).2
  | .insertGroup nn => some (t.insertGroup n nn).2
  | .addGroupChildren nn => (t.addGroupChildren n nn).map Prod.snd
  | .unlinkGroup => t.unlinkGroup n
  | .setCharValueInNode s => some (t.setCharValueInNode n s).2
  | .groupRename newname => t.groupRename n newname
  | .variableRename newname => t.variableRename n newname

end DbTree
end Gwenhywfar
