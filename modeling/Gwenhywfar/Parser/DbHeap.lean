import Gwenhywfar.Parser.Path

/-! # The nodes of a `GWEN_DB` in memory

* `DbHeap`: the nodes by their addresses.  A node that has been released is not used again, and
  the flags of the nodes are left out.
* `handlePath`: `GWEN_DB_HandlePath`; `getNode`, `setCharValue` and the like use it. -/

namespace Gwenhywfar

/-- `GWEN_DB_NODE_TYPE`, with the data of a value. -/
inductive DbNodeType where
  | group
  | var
  | value (data : DbValue)
deriving DecidableEq

/-- `GWEN_DB_NODE`. -/
structure DbNode where
  typ : DbNodeType
  dataName : CString
  children : List ℕ
  parent : Option ℕ
deriving DecidableEq

/-- The nodes at the addresses below `size`. -/
structure DbHeap where
  node : ℕ → DbNode
  size : ℕ

namespace Db

open Gwenhywfar.Path

/-! ### Nodes -/

/-- `GWEN_DB_Node_new`. -/
def newNode (h : DbHeap) (typ : DbNodeType) (name : CString) : DbHeap where
  node := Function.update h.node h.size ⟨typ, name, [], none⟩
  size := h.size + 1

/-- `GWEN_DB_Group_new`, for a group with nodes of its own. -/
def emptyGroup (name : CString) : DbHeap :=
  newNode ⟨fun _ => ⟨.group, CString.ofBytes [], [], none⟩, 0⟩ .group name

def setChildren (h : DbHeap) (n : ℕ) (children : List ℕ) : DbHeap :=
  { h with node := Function.update h.node n { h.node n with children := children } }

def setParent (h : DbHeap) (n parent : ℕ) : DbHeap :=
  { h with node := Function.update h.node n { h.node n with parent := some parent } }

/-- `GWEN_DB_Node_Append`. -/
def nodeAppend (h : DbHeap) (parent n : ℕ) : DbHeap :=
  setParent (setChildren h parent ((h.node parent).children ++ [n])) n parent

/-- `GWEN_DB_Node_Insert`. -/
def nodeInsert (h : DbHeap) (parent n : ℕ) : DbHeap :=
  setParent (setChildren h parent (n :: (h.node parent).children)) n parent

def nodeAdd (flags : UInt32) (h : DbHeap) (parent n : ℕ) : DbHeap :=
  if has flags flagsInsert then nodeInsert h parent n else nodeAppend h parent n

/-- `GWEN_DB_ClearNode`. -/
def clearNode (h : DbHeap) (n : ℕ) : DbHeap := setChildren h n []

/-! ### Finding and creating nodes -/

/-- The loop of `GWEN_DB_FindGroup` and of `GWEN_DB_FindVar`. -/
def findNode (h : DbHeap) (typ : DbNodeType) (name : CString) : List ℕ → (idx : Int32) → Option ℕ
  | [], _ => none
  | nn :: nodes, idx =>
      if (h.node nn).typ = typ ∧ strcaseEq (h.node nn).dataName name then
        if idx = 0 then some nn else findNode h typ name nodes (idx - 1)
      else findNode h typ name nodes idx

/-- `GWEN_DB_FindGroup`. -/
def findGroup (h : DbHeap) (n : ℕ) (name : CString) (idx : Int32) : Option ℕ :=
  if (h.node n).typ = .group then findNode h .group name (h.node n).children idx else none

/-- `GWEN_DB_FindVar`. -/
def findVar (h : DbHeap) (n : ℕ) (name : CString) (idx : Int32) : Option ℕ :=
  if (h.node n).typ = .group then findNode h .var name (h.node n).children idx else none

def createNode (flags : UInt32) (h : DbHeap) (n : ℕ) (name : CString) : DbHeap :=
  nodeAdd flags (newNode h (if has flags flagsVariable then .var else .group) name) n h.size

/-- `GWEN_DB_HandlePath`. -/
def handlePath (entry : List UInt8) (n : ℕ) (idx : Int32) (flags : UInt32) (h : DbHeap) :
    Option ℕ × DbHeap :=
  let name := CString.ofBytes entry
  if has flags flagsLast && (has flags flagsVariable && has flags flagsCreateVar ||
      !has flags flagsVariable && has flags flagsCreateGroup) ||
      !has flags flagsLast && has flags flagsPathCreate then
    if idx ≠ 0 then (none, h) else (some h.size, createNode flags h n name)
  else
    match if has flags flagsVariable then findVar h n name idx else findGroup h n name idx with
    | none =>
        if !has flags flagsLast && has flags flagsPathMustExist || has flags flagsNameMustExist then
          (none, h)
        else if idx ≠ 0 then (none, h)
        else (some h.size, createNode flags h n name)
    | some nn =>
        if has flags flagsLast && has flags flagsNameMustNotExist ||
            !has flags flagsLast && has flags flagsPathMustNotExist then (none, h)
        else (some nn, h)

/-- `GWEN_DB_GetNode`. -/
def getNode (h : DbHeap) (n : ℕ) (path : CString) (flags : UInt32) : Option ℕ × DbHeap :=
  handleWithIdx handlePath flags path.bytes n h

/-! ### Values and groups -/

def setValue (h : DbHeap) (n : ℕ) (flags : UInt32) (path : CString) (val : DbValue) : ℤ × DbHeap :=
  match getNode h n path (flags ||| flagsVariable) with
  | (none, h) => (1, h)
  | (some nn, h) =>
      let nv := h.size
      let h := newNode h (.value val) (CString.ofBytes [])
      let h := if has flags flagsOverwriteVars then clearNode h nn else h
      (0, nodeAdd flags h nn nv)

/-- `GWEN_DB_SetCharValue`. -/
def setCharValue (h : DbHeap) (n : ℕ) (flags : UInt32) (path val : CString) :
    ℤ × DbHeap := setValue h n flags path (.char val)

/-- `GWEN_DB_SetIntValue`. -/
def setIntValue (h : DbHeap) (n : ℕ) (flags : UInt32) (path : CString) (val : Int32) :
    ℤ × DbHeap := setValue h n flags path (.int val)

/-- `GWEN_DB_SetBinValue`. -/
def setBinValue (h : DbHeap) (n : ℕ) (flags : UInt32) (path : CString) (val : List UInt8) :
    ℤ × DbHeap := setValue h n flags path (.bin val)

/-- `GWEN_DB_GetGroup`. -/
def getGroup (h : DbHeap) (n : ℕ) (flags : UInt32) (path : CString) : Option ℕ × DbHeap :=
  match getNode h n path (flags &&& ~~~flagsVariable) with
  | (none, h) => (none, h)
  | (some nn, h) => (some nn, if has flags flagsOverwriteGroups then clearNode h nn else h)

def lookupFlags : UInt32 := flagsPathMustExist ||| flagsNameMustExist ||| flagsVariable

/-- The node that `GWEN_DB_GetValue` finds. -/
def resolve (h : DbHeap) (n : ℕ) (path : CString) : Option ℕ := (getNode h n path lookupFlags).1

def valueOf (h : DbHeap) (n : ℕ) : Option DbValue :=
  match (h.node n).typ with
  | .value data => some data
  | _ => none

def values (h : DbHeap) (n : ℕ) : List DbValue := (h.node n).children.filterMap (valueOf h)

/-- The variables of a group with their values, as `GWEN_DB_GetFirstVar`, `GWEN_DB_GetNextVar` and
the like find them. -/
def varsOf (h : DbHeap) (n : ℕ) : List (CString × List DbValue) :=
  ((h.node n).children.filter fun v => (h.node v).typ = .var).map fun v =>
    ((h.node v).dataName, values h v)

/-- `GWEN_DB_Node_Unlink`; the node must have a parent. -/
def nodeUnlink (h : DbHeap) (n : ℕ) : Option DbHeap :=
  (h.node n).parent.map fun parent => setChildren h parent ((h.node parent).children.erase n)

/-- `GWEN_DB_DeleteVar`. -/
def deleteVar (h : DbHeap) (n : ℕ) (path : CString) : Option (ℤ × DbHeap) :=
  match resolve h n path with
  | none => some (1, h)
  | some nn => (nodeUnlink h nn).map fun h => (0, h)

/-- `GWEN_DB_GetCharValue`, for the first value and no default value. -/
def getCharValue (h : DbHeap) (n : ℕ) (path : CString) : Option CString :=
  match (resolve h n path).bind fun nn => (values h nn).head? with
  | some (.char s) => some s
  | _ => none

/-- Nodes with their children, at most so many levels below each other. -/
def nodesOf (h : DbHeap) : ℕ → List ℕ → DbNodes
  | 0, _ => .nil
  | k + 1, nodes => nodes.foldr (fun n next =>
      match (h.node n).typ with
      | .group => .group 0 (h.node n).dataName (nodesOf h k (h.node n).children) next
      | .var => .var 0 (h.node n).dataName (values h n) next
      | .value _ => next) .nil

end Db
end Gwenhywfar
