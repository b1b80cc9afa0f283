import Mathlib.Data.List.Sort
import Gwenhywfar.Base.SimplePtrListLedger

/-! # `GWEN_IDLIST64`

A list of ids is a pointer list of tables; a table holds ids, and 0 marks a free entry.  The
tables count their references, and a table with reference counter 0 has been released.

* A failed assertion, an access outside a table and an overflow of `int` have no outcome.
* The allocator serves every request.
* `n` is the number of entries of a table, which the list keeps as user data. -/

namespace Gwenhywfar

/-- `GWEN_IDTABLE64`. -/
structure IdTable64 where
  maxEntries : ℕ
  freeEntries : ℕ
  highestEntry : ℕ
  ptrEntries : List UInt64
  refCount : ℕ
  runtimeFlags : UInt32
deriving DecidableEq, Repr

/-- The memory of lists of ids: a pointer of a list is the address of a table. -/
abbrev IdHeap := PtrHeap (List IdTable64) ℕ

namespace IdTable64

/-- `GWEN_IDTABLE64_RUNTIME_FLAGS_DIRTY`. -/
def runtimeFlagsDirty : UInt32 := 0x01

/-- `GWEN_IDTABLE64_RUNTIME_FLAGS_ISCOPY`. -/
def runtimeFlagsIsCopy : UInt32 := 0x02

/-- The table at an address, under `assert(ft); assert(ft->refCount)`. -/
def at? (w : List IdTable64) (t : ℕ) : Option IdTable64 :=
  (w[t]?).filter fun ft => 0 < ft.refCount

/-- `GWEN_IdTable64_Attach`. -/
def attach (t : ℕ) (w : List IdTable64) : Option (List IdTable64) :=
  (at? w t).map fun ft => w.set t { ft with refCount := ft.refCount + 1 }

/-- `GWEN_IdTable64_free`. -/
def free (t : ℕ) (w : List IdTable64) : Option (List IdTable64) :=
  (at? w t).map fun ft => w.set t { ft with refCount := ft.refCount - 1 }

/-- `GWEN_IdTable64_Create`; the caller adds the flag ISCOPY. -/
def create (maxEntries : ℕ) : IdTable64 :=
  { maxEntries := maxEntries, freeEntries := maxEntries, highestEntry := 0
    ptrEntries := List.replicate maxEntries 0, refCount := 1, runtimeFlags := 0 }

/-- `GWEN_IdTable64_dup`. -/
def dup (ftOrig : IdTable64) : IdTable64 := { ftOrig with refCount := 1 }

/-- `GWEN_IdTable64_AddRuntimeFlags`. -/
def addRuntimeFlags (ft : IdTable64) (i : UInt32) : IdTable64 :=
  { ft with runtimeFlags := ft.runtimeFlags ||| i }

/-- The loop over the entries from `i` on, of which `k` are left: the first one with `p`. -/
def scan (p : UInt64 → Bool) (entries : List UInt64) : (k i : ℕ) → Option (Option (ℕ × UInt64))
  | 0, _ => some none
  | k + 1, i => do
      let e ← entries[i]?
      if p e then some (some (i, e)) else scan p entries k (i + 1)

/-- The entry `GWEN_IdList64_AddId` takes in a table that has free ones: `n` when there is none;
the inner `none` is the internal error. -/
def freeEntryPos (n : ℕ) (ft : IdTable64) : Option (Option ℕ) := do
  if ft.freeEntries = ft.maxEntries then some (some 0)
  else if ft.highestEntry + 1 < n then
    -- fastest way: just append to the end
    let e ← ft.ptrEntries[ft.highestEntry + 1]?
    if e ≠ 0 then some none else some (some (ft.highestEntry + 1))
  else
    let r ← scan (· == 0) ft.ptrEntries n 0
    some (some ((r.map Prod.fst).getD n))

def store (ft : IdTable64) (entryPos : ℕ) (entry : UInt64) : IdTable64 :=
  { ft with
    ptrEntries := ft.ptrEntries.set entryPos entry
    freeEntries := ft.freeEntries - 1
    highestEntry := if ft.highestEntry < entryPos then entryPos else ft.highestEntry
    runtimeFlags := ft.runtimeFlags ||| runtimeFlagsDirty }

end IdTable64

namespace IdList64

open SimplePtrList

/-- `GWEN_IDLIST64_INITIAL_ENTRYCOUNT`. -/
def initialEntryCount : ℕ := 64

/-- `GWEN_IDLIST64_STEPS`. -/
def stepsOfList : ℕ := 64

/-- The allocator serves every request. -/
def served (_ : ℕ) : Bool := true

/-- `GWEN_IdList64_newWithSteps`: the address of the list. -/
def newWithSteps (h : IdHeap) (steps : ℕ) : Option (ℕ × IdHeap) := do
  let (l, h) ← SimplePtrList.new served h initialEntryCount stepsOfList
  let h ← setAttachObjectFn h l IdTable64.attach
  let h ← setFreeObjectFn h l IdTable64.free
  let h ← addFlags h l flagsAttachToObjects
  let h ← addFlags h l flagsDetachFromObjects
  let h ← setUserIntData h l steps
  some (l, h)

/-- `GWEN_IdList64_GetEntryCount`. -/
def getEntryCount (h : IdHeap) (l : ℕ) : Option ℕ := (h.list l).map SimplePtrList.userCounter

/-- `GWEN_IdList64_GetTableMaxEntries`. -/
def getTableMaxEntries (h : IdHeap) (l : ℕ) : Option ℕ :=
  (h.list l).map fun pl => pl.userIntData.toNat

/-- `GWEN_IdList64_GetUsedTables`. -/
def getUsedTables (h : IdHeap) (l : ℕ) : Option ℕ := (h.list l).map SimplePtrList.usedEntries

/-- `GWEN_IdList64_GetTableAt`; the inner `none` is a NULL pointer. -/
def getTableAt (h : IdHeap) (l idx : ℕ) : Option (Option ℕ) := getPtrAt h l idx

/-- `GWEN_IdList64_GetLastTablePos`. -/
def getLastTablePos (h : IdHeap) (l : ℕ) : Option ℤ :=
  (getUsedTables h l).map fun (used : ℕ) => if used = 0 then errorNoData else (used : ℤ) - 1

/-- `GWEN_IdList64_GetIdAt`: the id as an `int64_t`, or an error. -/
def getIdAt (h : IdHeap) (l idx : ℕ) : Option ℤ := do
  let n ← getTableMaxEntries h l
  if n = 0 then some errorBufferOverflow
  else
    match ← getTableAt h l (idx / n) with
    | none => some errorBufferOverflow
    | some t =>
        let ft ← IdTable64.at? h.objects t
        let e ← ft.ptrEntries[idx % n]?
        some e.toBitVec.toInt

def setTable (h : IdHeap) (t : ℕ) (ft : IdTable64) : IdHeap :=
  { h with objects := h.objects.set t ft }

/-! ### Adding an id -/

def lastTable (h : IdHeap) (l : ℕ) (idx : ℤ) : Option (Option ℕ) :=
  if 0 ≤ idx then getTableAt h l idx.toNat else some none

/-- A new table at the end of the list: its index (or an error) and its address. -/
def appendTable (h : IdHeap) (l n : ℕ) : Option (ℤ × ℕ × IdHeap) := do
  let t := h.objects.length
  let ft := (IdTable64.create n).addRuntimeFlags IdTable64.runtimeFlagsIsCopy
  let (idx, h) ← addPtr served { h with objects := h.objects ++ [ft] } l (some t)
  let w ← IdTable64.free t h.objects
  some (idx, t, { h with objects := w })

def currentTable (h : IdHeap) (l n : ℕ) : Option (ℤ × ℕ × IdHeap) := do
  let idx ← getLastTablePos h l
  match ← lastTable h l idx with
  | none => appendTable h l n
  | some t =>
      let ft ← IdTable64.at? h.objects t
      if ft.freeEntries = 0 then appendTable h l n else some (idx, t, h)

def ownTable (h : IdHeap) (l idx t : ℕ) : Option (ℕ × IdHeap) := do
  let ft ← IdTable64.at? h.objects t
  if ft.runtimeFlags &&& IdTable64.runtimeFlagsIsCopy != 0 then some (t, h)
  else
    let t' := h.objects.length
    let (_, h) ← setPtrAt served { h with objects := h.objects ++ [ft.dup] } l idx (some t')
    let w ← IdTable64.free t' h.objects
    let ft' ← IdTable64.at? w t'
    some (t', { h with objects := w.set t' (ft'.addRuntimeFlags IdTable64.runtimeFlagsIsCopy) })

/-- The new entry is stored in the table at index `idx` of the list. -/
def storeId (h : IdHeap) (l n idx t : ℕ) (entry : UInt64) : Option (ℤ × IdHeap) := do
  let ft ← IdTable64.at? h.objects t
  match ← ft.freeEntryPos n with
  | none => some (errorInternal, h)
  | some entryPos =>
      if entryPos < n then
        let h ← incUserCounter (setTable h t (ft.store entryPos entry)) l
        some ((idx * n + entryPos : ℕ), h)
      else some (errorInternal, h)

/-- `GWEN_IdList64_AddId`: the index of the entry. -/
def addId (h : IdHeap) (l : ℕ) (entry : UInt64) : Option (ℤ × IdHeap) := do
  let n ← getTableMaxEntries h l
  if entry = 0 then some (errorInvalid, h)
  else
    let (rv, h) ← ensureWritability served h l
    if rv < 0 then some (rv, h)
    else
      let (idx, t, h) ← currentTable h l n
      if idx < 0 then some (idx, h)
      else
        let ft ← IdTable64.at? h.objects t
        if ft.freeEntries = 0 then some (errorInternal, h)
        else
          let (t, h) ← ownTable h l idx.toNat t
          storeId h l n idx.toNat t entry

/-! ### Finding and deleting ids -/

/-- The loop over the tables from `idx` on, of which `k` are left: the first entry with `p`, in
the first of these tables from `start` on. -/
def find (h : IdHeap) (l n : ℕ) (p : UInt64 → Bool) :
    (k idx start : ℕ) → Option (Option (ℕ × ℕ × UInt64))
  | 0, _, _ => some none
  | k + 1, idx, start => do
      match ← getTableAt h l idx with
      | none => find h l n p k (idx + 1) 0
      | some t =>
          let ft ← IdTable64.at? h.objects t
          match ← IdTable64.scan p ft.ptrEntries (n - start) start with
          | some r => some (some (idx, r))
          | none => find h l n p k (idx + 1) 0

/-- `GWEN_IdList64_GetUsedTables` as the `int` that is compared with a `uint32_t`. -/
def numTables (h : IdHeap) (l : ℕ) : Option ℕ := (getUsedTables h l).map (· % 2 ^ 32)

/-- `GWEN_IdList64_HasId`. -/
def hasId (h : IdHeap) (l : ℕ) (wantedId : UInt64) : Option ℤ := do
  let n ← getTableMaxEntries h l
  let num ← numTables h l
  let r ← find h l n (· == wantedId) num 0 0
  some (if r.isSome then 1 else 0)

/-- `GWEN_IdList64_DelId`. -/
def delId (h : IdHeap) (l : ℕ) (wantedId : UInt64) : Option (ℤ × IdHeap) := do
  let n ← getTableMaxEntries h l
  let num ← numTables h l
  match ← find h l n (· == wantedId) num 0 0 with
  | none => some (0, h)
  | some (idx, i, _) =>
      let t ← (← getTableAt h l idx)
      let ft ← IdTable64.at? h.objects t
      let (_, h) ← decUserCounter (setTable h t { ft with ptrEntries := ft.ptrEntries.set i 0 }) l
      some (1, h)

/-! ### The iterator -/

/-- The id found and the next position; the index of the entry is counted in an `int`, which
begins at the first entry of the table. -/
def found (n used : ℕ) : Option (ℕ × ℕ × UInt64) → Option (UInt64 × ℕ)
  | none => if used * n < 2 ^ 31 then some (0, 0) else none
  | some (idx, i, id) => if idx * n + i + 1 < 2 ^ 31 then some (id, idx * n + i + 1) else none

/-- `GWEN_IdList64__GetFirstId`: the id and the position. -/
def getFirstId (h : IdHeap) (l : ℕ) : Option (UInt64 × ℕ) := do
  let n ← getTableMaxEntries h l
  let num ← numTables h l
  let r ← find h l n (· != 0) num 0 0
  found n num r

/-- `GWEN_IdList64__GetNextId`: the id and the position. -/
def getNextId (h : IdHeap) (l pos : ℕ) : Option (UInt64 × ℕ) := do
  if pos = 0 then some (0, 0)
  else
    let n ← getTableMaxEntries h l
    let num ← numTables h l
    -- a division by zero
    if n = 0 then none
    else if num < 2 ^ 31 ∧ num < pos / n then some (0, 0)
    else
      let r ← find h l n (· != 0) (num - pos / n) (pos / n) (pos % n)
      found n (max num (pos / n)) r

/-- The results of `k` calls of `GWEN_IdList64_Iterator_GetNextId`. -/
def walkNext (h : IdHeap) (l : ℕ) : (k pos : ℕ) → Option (List UInt64)
  | 0, _ => some []
  | k + 1, pos => do
      let (id, pos) ← getNextId h l pos
      let ids ← walkNext h l k pos
      some (id :: ids)

/-- The results of `k` calls of an iterator, the first one of which is
`GWEN_IdList64_Iterator_GetFirstId`. -/
def walk (h : IdHeap) (l : ℕ) : ℕ → Option (List UInt64)
  | 0 => some []
  | k + 1 => do
      let (id, pos) ← getFirstId h l
      let ids ← walkNext h l k pos
      some (id :: ids)

/-! ### Clearing, sorting and copying -/

/-- `GWEN_IdList64_Clear`. -/
def clear (h : IdHeap) (l : ℕ) : Option IdHeap := do
  let h ← SimplePtrList.clear h l
  setUserCounter h l 0

/-- The ids added one after the other, the results being ignored. -/
def addIds (h : IdHeap) (l : ℕ) : List UInt64 → Option IdHeap
  | [] => some h
  | id :: ids => do
      let (_, h) ← addId h l id
      addIds h l ids

/-- The comparison of `qsort`: `__compAscending` or `__compDescending`. -/
def inOrder (ascending : Bool) (a b : UInt64) : Bool := if ascending then a ≤ b else b ≤ a

/-- `GWEN_IdList64__Sort`. -/
def sort (h : IdHeap) (l : ℕ) (ascending : Bool) : Option IdHeap := do
  let entryCount ← getEntryCount h l
  if entryCount = 0 then some h
  else
    let ids ← walk h l entryCount
    -- assert(id)
    if 0 ∈ ids then none
    else
      let h ← clear h l
      addIds h l (ids.mergeSort (inOrder ascending))

/-- `GWEN_IdList64_LazyCopy`: the address of the copy. -/
def lazyCopy (h : IdHeap) (l : ℕ) : Option (ℕ × IdHeap) := SimplePtrList.lazyCopy h l

/-- The loop of `GWEN_IdList64_dup` over the tables of `l` from `i` on, of which `k` are left. -/
def dupTables (l idl : ℕ) : (k i : ℕ) → IdHeap → Option (ℤ × IdHeap)
  | 0, _, h => some (0, h)
  | k + 1, i, h => do
      match ← getTableAt h l i with
      | none => dupTables l idl k (i + 1) h
      | some t =>
          let ft ← IdTable64.at? h.objects t
          let t' := h.objects.length
          let (rv, h) ← addPtr served { h with objects := h.objects ++ [ft.dup] } idl (some t')
          let w ← IdTable64.free t' h.objects
          if rv < 0 then some (rv, { h with objects := w })
          else dupTables l idl k (i + 1) { h with objects := w }

/-- `GWEN_IdList64_dup`: the address of the copy; the inner `none` is a NULL pointer. -/
def dup (h : IdHeap) (l : ℕ) : Option (Option ℕ × IdHeap) := do
  let n ← getTableMaxEntries h l
  let used ← getUsedTables h l
  let count ← getEntryCount h l
  let (idl, h) ← newWithSteps h n
  let (rv, h) ← dupTables l idl used 0 h
  if rv < 0 then
    let h ← SimplePtrList.free h idl
    some (none, h)
  else
    let h ← setUserCounter h idl count
    some (some idl, h)

end IdList64
end Gwenhywfar
