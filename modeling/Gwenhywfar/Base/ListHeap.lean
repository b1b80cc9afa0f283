import Gwenhywfar.Lib.Siblings

/-! # The copy-on-write lists of `GWEN_LIST`

* `ListHeap`: the entries, the list pointers that hold the representation of the lists, and the
  lists, which are numbered and use a list pointer each.  A null pointer is `none`.
* An operation is `none` where the code fails an assertion, follows a null pointer or does not
  come to the end of a loop.
* An iterator is the entry it stands at, whose usage counter it raises.
* The reference-counting wrapper around the data of an entry is left out, and the counters of
  entries and list pointers are natural numbers; link counts have 32 bits. -/

namespace Gwenhywfar

/-- The entries below `entries`, the list pointers below `listPtrs` and the lists. -/
structure ListHeap where
  previous : ℕ → Option ℕ
  next : ℕ → Option ℕ
  dataPtr : ℕ → ℕ
  usage : ℕ → ℕ
  linkCount : ℕ → UInt32
  entries : ℕ
  refCount : ℕ → ℕ
  first : ℕ → Option ℕ
  last : ℕ → Option ℕ
  size : ℕ → ℕ
  listPtrs : ℕ
  lists : List ℕ

/-- What an entry holds: its data, NULL being 0, and its link count. -/
abbrev ListItem := ℕ × UInt32

/-- The end an iterator starts from. -/
inductive ListEnd where
  | first
  | last
deriving DecidableEq

/-- The way an iterator moves. -/
inductive ListMove where
  | next
  | previous
deriving DecidableEq

namespace ListHeap

open Function

/-- No list yet. -/
def empty : ListHeap where
  previous _ := none
  next _ := none
  dataPtr _ := 0
  usage _ := 0
  linkCount _ := 0
  entries := 0
  refCount _ := 0
  first _ := none
  last _ := none
  size _ := 0
  listPtrs := 0
  lists := []

/-! ### Entries and list pointers -/

/-- `GWEN_ListEntry_free`. -/
def entryFree (h : ListHeap) (le : ℕ) : ListHeap :=
  if h.usage le = 0 then h
  else if h.usage le = 1 then
    { h with
      usage := update h.usage le 0
      previous := update h.previous le none
      next := update h.next le none }
  else { h with usage := update h.usage le (h.usage le - 1) }

/-- A new entry with the link count `c` at the end, as `GWEN_List_PushBackRefPtr` and the loop of
`GWEN__ListPtr_dup` put it there. -/
def appendEntry (h : ListHeap) (lp data : ℕ) (c : UInt32) : ListHeap :=
  { h with
    entries := h.entries + 1
    usage := update h.usage h.entries 1
    dataPtr := update h.dataPtr h.entries data
    previous := update h.previous h.entries (h.last lp)
    next := setAt (update h.next h.entries none) (h.last lp) (some h.entries)
    last := update h.last lp (some h.entries)
    first := update h.first lp ((h.first lp).or (some h.entries))
    size := update h.size lp (h.size lp + 1)
    linkCount := update h.linkCount h.entries c }

/-- A new entry in front, as `GWEN_List_PushFrontRefPtr` puts it there. -/
def prependEntry (h : ListHeap) (lp data : ℕ) (c : UInt32) : ListHeap :=
  { h with
    entries := h.entries + 1
    usage := update h.usage h.entries 1
    dataPtr := update h.dataPtr h.entries data
    next := update h.next h.entries (h.first lp)
    previous := setAt (update h.previous h.entries none) (h.first lp) (some h.entries)
    first := update h.first lp (some h.entries)
    last := update h.last lp ((h.last lp).or (some h.entries))
    size := update h.size lp (h.size lp + 1)
    linkCount := update h.linkCount h.entries c }

/-- `GWEN__ListPtr_new`, at the address `listPtrs`. -/
def listPtrNew (h : ListHeap) : ListHeap :=
  { h with
    listPtrs := h.listPtrs + 1
    refCount := update h.refCount h.listPtrs 1
    first := update h.first h.listPtrs none
    last := update h.last h.listPtrs none
    size := update h.size h.listPtrs 0 }

/-- The loop of `GWEN__ListPtr_Clear`. -/
def clearLoop : ℕ → Option ℕ → ListHeap → Option ListHeap
  | _, none, h => some h
  | 0, some _, _ => none
  | fuel + 1, some le, h => clearLoop fuel (h.next le) (h.entryFree le)

/-- `GWEN__ListPtr_Clear`. -/
def listPtrClear (h : ListHeap) (lp : ℕ) : Option ListHeap :=
  (clearLoop h.entries (h.first lp) h).map fun h' =>
    { h' with
      first := update h'.first lp none
      last := update h'.last lp none
      size := update h'.size lp 0 }

/-- `GWEN__ListPtr_free`. -/
def listPtrFree (h : ListHeap) (lp : ℕ) : Option ListHeap :=
  if h.refCount lp = 0 then none
  else
    let h' := { h with refCount := update h.refCount lp (h.refCount lp - 1) }
    if h.refCount lp = 1 then h'.listPtrClear lp else some h'

/-- The loop of `GWEN__ListPtr_dup`. -/
def dupLoop (nlp : ℕ) : ℕ → Option ℕ → ListHeap → Option ListHeap
  | _, none, h => some h
  | 0, some _, _ => none
  | fuel + 1, some le, h =>
      let h' := h.appendEntry nlp (h.dataPtr le) (h.linkCount le)
      dupLoop nlp fuel (h'.next le) h'

/-- `GWEN__ListPtr_dup`; the copy is at the address `listPtrs`. -/
def listPtrDup (h : ListHeap) (lp : ℕ) : Option ListHeap :=
  dupLoop h.listPtrs h.entries (h.first lp) h.listPtrNew

/-! ### Lists -/

/-- `GWEN_List_new`. -/
def new (h : ListHeap) : ListHeap :=
  { h.listPtrNew with lists := h.lists ++ [h.listPtrs] }

/-- `GWEN_List_dup`. -/
def dup (h : ListHeap) (l : ℕ) : Option ListHeap := do
  let lp ← h.lists[l]?
  if h.refCount lp = 0 then none
  else some { h with
    refCount := update h.refCount lp (h.refCount lp + 1)
    lists := h.lists ++ [lp] }

/-- The list gets a copy of its list pointer, as each function that writes to a shared list
begins. -/
def ownCopy (h : ListHeap) (l lp : ℕ) : Option ListHeap := do
  let h1 ← h.listPtrDup lp
  let h2 ← h1.listPtrFree lp
  some { h2 with lists := h2.lists.set l h.listPtrs }

/-- `GWEN_List_Unshare`. -/
def unshare (h : ListHeap) (l : ℕ) : Option ListHeap := do
  let lp ← h.lists[l]?
  if 1 < h.refCount lp then h.ownCopy l lp else some h

/-- `GWEN_List_PushBack`. -/
def pushBack (h : ListHeap) (l p : ℕ) : Option ListHeap := do
  let h' ← h.unshare l
  let lp ← h'.lists[l]?
  some (h'.appendEntry lp p 1)

/-- `GWEN_List_PushFront`. -/
def pushFront (h : ListHeap) (l p : ℕ) : Option ListHeap := do
  let h' ← h.unshare l
  let lp ← h'.lists[l]?
  some (h'.prependEntry lp p 1)

/-- The end of `GWEN_List_PopBack`: the last entry `le` goes. -/
def dropBack (h : ListHeap) (lp le : ℕ) : ListHeap :=
  let h1 := { h with
    linkCount := update h.linkCount le 0
    last := update h.last lp (h.previous le)
    next := setAt h.next (h.previous le) none
    first := if h.previous le = none then update h.first lp none else h.first }
  let h2 := h1.entryFree le
  { h2 with size := update h2.size lp (h2.size lp - 1) }

/-- `GWEN_List_PopBack`. -/
def popBack (h : ListHeap) (l : ℕ) : Option ListHeap := do
  let lp ← h.lists[l]?
  if h.last lp = none then some h
  else
    let h' ← h.unshare l
    let lp' ← h'.lists[l]?
    match h'.last lp' with
    | none => some h'
    | some le => some (h'.dropBack lp' le)

/-- The end of `GWEN_List_PopFront`: the first entry `le` goes. -/
def dropFront (h : ListHeap) (lp le : ℕ) : ListHeap :=
  let h1 := { h with
    linkCount := update h.linkCount le 0
    first := update h.first lp (h.next le)
    previous := setAt h.previous (h.next le) none
    last := if h.next le = none then update h.last lp none else h.last }
  let h2 := h1.entryFree le
  { h2 with size := update h2.size lp (h2.size lp - 1) }

/-- `GWEN_List_PopFront`. -/
def popFront (h : ListHeap) (l : ℕ) : Option ListHeap := do
  let lp ← h.lists[l]?
  if h.first lp = none then some h
  else
    let h' ← h.unshare l
    let lp' ← h'.lists[l]?
    match h'.first lp' with
    | none => some h'
    | some le => some (h'.dropFront lp' le)

/-- `GWEN_List_Clear`. -/
def clear (h : ListHeap) (l : ℕ) : Option ListHeap := do
  let lp ← h.lists[l]?
  if 1 < h.refCount lp then h.ownCopy l lp else h.listPtrClear lp

/-! ### Iterators -/

/-- An iterator that comes to an entry raises its usage counter. -/
def hold (h : ListHeap) : Option ℕ → ListHeap
  | none => h
  | some le => { h with usage := update h.usage le (h.usage le + 1) }

/-- An iterator that leaves an entry frees it; so does `GWEN_ListIterator_free`. -/
def release (h : ListHeap) : Option ℕ → ListHeap
  | none => h
  | some le => h.entryFree le

/-- The pointer an iterator follows. -/
def link (h : ListHeap) : ListMove → ℕ → Option ℕ
  | .next => h.next
  | .previous => h.previous

/-- The entry an iterator starts from. -/
def endOf (h : ListHeap) (lp : ℕ) : ListEnd → Option ℕ
  | .first => h.first lp
  | .last => h.last lp

/-- `GWEN_ListIterator_Next` and `GWEN_ListIterator_Previous`. -/
def iterMove (h : ListHeap) (current : Option ℕ) (m : ListMove) : Option ℕ × ListHeap :=
  let le := current.bind (h.link m)
  (le, (h.release current).hold le)

def iterMoves (h : ListHeap) (current : Option ℕ) : List ListMove → Option ℕ × ListHeap
  | [] => (current, h)
  | m :: ms => iterMoves (h.iterMove current m).2 (h.iterMove current m).1 ms

/-- The iterator that `GWEN_List_First` or `GWEN_List_Last` makes, which is NULL for an empty list,
after some moves. -/
def iterAt (h : ListHeap) (lp : ℕ) (start : ListEnd) (ms : List ListMove) :
    Option (Option ℕ × ListHeap) :=
  match h.endOf lp start with
  | none => none
  | some le => some ((h.hold (some le)).iterMoves (some le) ms)

/-- The loop of `GWEN_List_Erase` that counts the entries before one. -/
def countBack (h : ListHeap) : ℕ → ℕ → Option ℕ
  | 0, _ => none
  | fuel + 1, tle =>
      match h.previous tle with
      | none => some 0
      | some q => (countBack h fuel q).map (· + 1)

/-- The loop of `GWEN_List_Erase` that seeks a position. -/
def seek (h : ListHeap) : Option ℕ → ℕ → Option ℕ
  | none, _ => none
  | some tle, 0 => some tle
  | some tle, i + 1 => seek h (h.next tle) i

/-- The part of `GWEN_List_Erase` that takes the entry out of the list pointer `lp`; the iterator
comes to the next entry. -/
def unlinkEntry (h : ListHeap) (lp current : ℕ) : ListHeap :=
  let h1 := { h with
    first := if h.first lp = some current then update h.first lp (h.next current) else h.first
    last := if h.last lp = some current then update h.last lp (h.previous current) else h.last }
  let h2 := h1.hold (h.next current)
  let h3 := { h2 with
    previous := setAt h.previous (h.next current) (h.previous current)
    next := setAt h.next (h.previous current) (h.next current)
    usage := update h2.usage current (h2.usage current - 1) }
  let h4 := h3.entryFree current
  { h4 with size := update h4.size lp (h4.size lp - 1) }

/-- The end of `GWEN_List_Erase`; the iterator moves on, and the link count that goes down is the
one of the entry it moves to. -/
def eraseEntry (h : ListHeap) (lp current : ℕ) : Option (Option ℕ × ListHeap) :=
  if h.linkCount current = 1 then some (h.next current, h.unlinkEntry lp current)
  else
    let h1 := h.hold (h.next current)
    let h2 := { h1 with usage := update h1.usage current (h1.usage current - 1) }
    match h.next current with
    | none => none
    | some le => some (some le,
        { h2 with linkCount := update h2.linkCount le (h2.linkCount le - 1) })

/-- `GWEN_List_Erase`, with what the iterator stands at afterwards. -/
def erase (h : ListHeap) (l : ℕ) (current : Option ℕ) : Option (Option ℕ × ListHeap) := do
  let lp ← h.lists[l]?
  if 1 < h.refCount lp then
    let tle ← current
    let i ← h.countBack h.entries tle
    let h' ← h.ownCopy l lp
    let tle' ← h'.seek (h'.first h.listPtrs) i
    h'.eraseEntry h.listPtrs tle'
  else
    match current with
    | none => some (none, h)
    | some le => h.eraseEntry lp le

/-- The data an iterator stands at, `GWEN_ListIterator_Data`. -/
def iterData (h : ListHeap) : Option ℕ → ℕ
  | none => 0
  | some le => h.dataPtr le

/-- The loop of `GWEN_List_FindIter`. -/
def findLoop (p : ℕ) : ℕ → Option ℕ → ListHeap → Option (Option ℕ × ListHeap)
  | 0, _, _ => none
  | fuel + 1, current, h =>
      if h.iterData current = 0 then some (none, h.release current)
      else if h.iterData current = p then some (current, h)
      else findLoop p fuel (h.iterMove current .next).1 (h.iterMove current .next).2

/-- `GWEN_List_FindIter`. -/
def findIter (h : ListHeap) (lp p : ℕ) : Option (Option ℕ × ListHeap) :=
  match h.first lp with
  | none => some (none, h)
  | some le => findLoop p (h.entries + 1) (some le) (h.hold (some le))

/-- `GWEN_List_Remove`. -/
def remove (h : ListHeap) (l p : ℕ) : Option ListHeap := do
  let lp ← h.lists[l]?
  match ← h.findIter lp p with
  | (none, h') => some h'
  | (some le, h') =>
      let (current, h'') ← h'.erase l (some le)
      some (h''.release current)

/-! ### What is seen of a list -/

/-- `GWEN_List_GetSize`. -/
def getSize (h : ListHeap) (l : ℕ) : Option ℕ := (h.lists[l]?).map h.size

/-- `GWEN_List_GetFront`. -/
def getFront (h : ListHeap) (l : ℕ) : Option ℕ :=
  (h.lists[l]?).map fun lp => h.iterData (h.first lp)

/-- `GWEN_List_GetBack`. -/
def getBack (h : ListHeap) (l : ℕ) : Option ℕ :=
  (h.lists[l]?).map fun lp => h.iterData (h.last lp)

def item (h : ListHeap) (le : ℕ) : ListItem := (h.dataPtr le, h.linkCount le)

/-- What an iterator reads that follows the links until it comes to an end. -/
def readAll (h : ListHeap) (link : ℕ → Option ℕ) : ℕ → Option ℕ → List ListItem
  | _, none => []
  | 0, some _ => []
  | fuel + 1, some le => h.item le :: readAll h link fuel (link le)

def forward (h : ListHeap) (l : ℕ) : Option (List ListItem) :=
  (h.lists[l]?).map fun lp => h.readAll h.next h.entries (h.first lp)

def backward (h : ListHeap) (l : ℕ) : Option (List ListItem) :=
  (h.lists[l]?).map fun lp => h.readAll h.previous h.entries (h.last lp)

end ListHeap
end Gwenhywfar
