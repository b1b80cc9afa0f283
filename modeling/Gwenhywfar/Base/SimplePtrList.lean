import Gwenhywfar.Lib.Run
import Gwenhywfar.Lib.Cells
import Gwenhywfar.Base.Error

/-! # `GWEN_SIMPLEPTRLIST`

Lists of pointers that share their pointer blocks lazily.  The heap holds the pointer blocks
(`INTERNAL_PTRLIST`) and the lists, both addressed by position, and the objects `ω` behind the
pointers `ι`, which only the attach and free functions of the lists touch.

* A block or list with reference counter 0 has been released.  An access to it, an index
  outside a block and a failed assertion have no outcome (`none`).
* `fits n` tells whether the allocator serves a block of `n` entries.  A block that is resized
  gets a new address.
* Sizes and counters are natural numbers: a block of `2 ^ 61` entries is never served. -/

namespace Gwenhywfar

/-- `INTERNAL_PTRLIST`; `storedEntries` is the length of `entries`. -/
structure PtrBlock (ι : Type) where
  refCounter : ℕ
  entries : List (Option ι)

/-- `GWEN_SIMPLEPTRLIST`. -/
structure SimplePtrList (ω ι : Type) where
  maxEntries : ℕ
  usedEntries : ℕ
  steps : ℕ
  flags : UInt32
  refCount : ℕ
  userIntData : ℤ
  userCounter : ℕ
  entryList : ℕ
  attachObjectFn : Option (ι → ω → Option ω)
  freeObjectFn : Option (ι → ω → Option ω)

/-- The memory that the lists live in. -/
structure PtrHeap (ω ι : Type) where
  blocks : List (PtrBlock ι)
  lists : List (SimplePtrList ω ι)
  objects : ω

variable {ω ι : Type}

namespace PtrHeap

/-- The list at an address, under `assert(pl); assert(pl->refCount)`. -/
def list (h : PtrHeap ω ι) (l : ℕ) : Option (SimplePtrList ω ι) :=
  (h.lists[l]?).filter fun pl => 0 < pl.refCount

def block (h : PtrHeap ω ι) (a : ℕ) : Option (PtrBlock ι) :=
  (h.blocks[a]?).filter fun b => 0 < b.refCounter

def setList (h : PtrHeap ω ι) (l : ℕ) (pl : SimplePtrList ω ι) : PtrHeap ω ι :=
  { h with lists := h.lists.set l pl }

def setBlock (h : PtrHeap ω ι) (a : ℕ) (b : PtrBlock ι) : PtrHeap ω ι :=
  { h with blocks := h.blocks.set a b }

end PtrHeap

namespace SimplePtrList

/-- `GWEN_SIMPLEPTRLIST_FLAGS_COPYONWRITE`. -/
def flagsCopyOnWrite : UInt32 := 0x80000000

/-- `GWEN_SIMPLEPTRLIST_FLAGS_ATTACHTOOBJECTS`. -/
def flagsAttachToObjects : UInt32 := 0x40000000

/-- `GWEN_SIMPLEPTRLIST_FLAGS_DETACHFROMOBJECTS`. -/
def flagsDetachFromObjects : UInt32 := 0x20000000

def hasFlag (pl : SimplePtrList ω ι) (f : UInt32) : Bool := pl.flags &&& f != 0

/-! ### Blocks -/

/-- `_mallocPtrList`; `none` when memory is full. -/
def mallocPtrList (fits : ℕ → Bool) (h : PtrHeap ω ι) (totalEntries : ℕ) :
    Option (ℕ × PtrHeap ω ι) :=
  if fits totalEntries then
    some (h.blocks.length,
      { h with blocks := h.blocks ++ [⟨1, List.replicate totalEntries none⟩] })
  else none

/-- `_attachToPtrList`. -/
def attachToPtrList (h : PtrHeap ω ι) (a : ℕ) : Option (PtrHeap ω ι) :=
  (h.block a).map fun b => h.setBlock a { b with refCounter := b.refCounter + 1 }

/-- `_freePtrList`. -/
def freePtrList (h : PtrHeap ω ι) (a : ℕ) : PtrHeap ω ι :=
  match h.block a with
  | none => h
  | some b => h.setBlock a { b with refCounter := b.refCounter - 1 }

/-- The entries of a block of which the size grows to `totalEntries`. -/
def grow (entries : List (Option ι)) (totalEntries : ℕ) : List (Option ι) :=
  entries ++ List.replicate (totalEntries - entries.length) none

/-- `_reallocPtrList`; the inner `none` is a NULL pointer. -/
def reallocPtrList (fits : ℕ → Bool) (h : PtrHeap ω ι) (a totalEntries : ℕ) :
    Option (Option (ℕ × PtrHeap ω ι)) :=
  match h.block a with
  | none => none
  | some b =>
      if totalEntries < b.entries.length then some (some (a, h))
      else if fits totalEntries then
        some (some (h.blocks.length,
          { h with blocks := h.blocks.set a { b with refCounter := 0 } ++
              [{ b with entries := grow b.entries totalEntries }] }))
      else some none

/-- `_copyPtrList`; the inner `none` is a NULL pointer. -/
def copyPtrList (fits : ℕ → Bool) (h : PtrHeap ω ι) (a totalEntries : ℕ) :
    Option (Option (ℕ × PtrHeap ω ι)) :=
  match h.block a with
  | none => none
  | some b =>
      if fits (max totalEntries b.entries.length) then
        some (some (h.blocks.length,
          { h with blocks := h.blocks ++ [⟨1, grow b.entries totalEntries⟩] }))
      else some none

/-! ### Attaching and detaching -/

/-- `_attachToObject`. -/
def attachToObject (pl : SimplePtrList ω ι) (p : ι) (w : ω) : Option ω :=
  match pl.attachObjectFn with
  | none => some w
  | some attach => attach p w

/-- `_detachFromObject`. -/
def detachFromObject (pl : SimplePtrList ω ι) (p : ι) (w : ω) : Option ω :=
  match pl.freeObjectFn with
  | none => some w
  | some free => free p w

/-- The loop over the entries that are not NULL. -/
def forEachPtr (f : ι → ω → Option ω) : List (Option ι) → ω → Option ω
  | [], w => some w
  | none :: entries, w => forEachPtr f entries w
  | some p :: entries, w => (f p w).bind fun w => forEachPtr f entries w

/-- `_attachToAllObjects`. -/
def attachToAllObjects (h : PtrHeap ω ι) (pl : SimplePtrList ω ι) : Option (PtrHeap ω ι) :=
  match pl.attachObjectFn, h.block pl.entryList with
  | none, _ => some h
  | some _, none => none
  | some attach, some b =>
      if pl.usedEntries ≤ b.entries.length then
        (forEachPtr attach (b.entries.take pl.usedEntries) h.objects).map fun w =>
          { h with objects := w }
      else none

/-- `_detachFromAllObjects`. -/
def detachFromAllObjects (h : PtrHeap ω ι) (pl : SimplePtrList ω ι) : Option (PtrHeap ω ι) :=
  match pl.freeObjectFn, h.block pl.entryList with
  | none, _ => some h
  | some _, none => none
  | some free, some b =>
      if pl.usedEntries ≤ b.entries.length then
        (forEachPtr free (b.entries.take pl.usedEntries) h.objects).map fun w =>
          { h with objects := w }
      else none

/-- `_attachToAllObjects` when the flag is set. -/
def attachToAllIfSet (h : PtrHeap ω ι) (pl : SimplePtrList ω ι) : Option (PtrHeap ω ι) :=
  if pl.hasFlag flagsAttachToObjects then attachToAllObjects h pl else some h

/-- `_detachFromAllObjects` when the flag is set. -/
def detachFromAllIfSet (h : PtrHeap ω ι) (pl : SimplePtrList ω ι) : Option (PtrHeap ω ι) :=
  if pl.hasFlag flagsDetachFromObjects then detachFromAllObjects h pl else some h

/-- `if (p && (pl->flags & GWEN_SIMPLEPTRLIST_FLAGS_ATTACHTOOBJECTS)) _attachToObject(pl, p)`. -/
def attachIfAny (pl : SimplePtrList ω ι) : Option ι → ω → Option ω
  | none, w => some w
  | some p, w => if pl.hasFlag flagsAttachToObjects then attachToObject pl p w else some w

/-- `if (p && (pl->flags & GWEN_SIMPLEPTRLIST_FLAGS_DETACHFROMOBJECTS)) _detachFromObject(pl, p)`. -/
def detachIfAny (pl : SimplePtrList ω ι) : Option ι → ω → Option ω
  | none, w => some w
  | some p, w => if pl.hasFlag flagsDetachFromObjects then detachFromObject pl p w else some w

/-! ### The functions of the list -/

/-- `GWEN_SimplePtrList_new`: the address of the list; `none` when memory is full. -/
def new (fits : ℕ → Bool) (h : PtrHeap ω ι) (startEntries steps : ℕ) :
    Option (ℕ × PtrHeap ω ι) := do
  let (entryList, h) ← mallocPtrList fits h startEntries
  some (h.lists.length, { h with
    lists := h.lists ++ [⟨startEntries, 0, steps, 0, 1, 0, 0, entryList, none, none⟩] })

/-- `GWEN_SimplePtrList_SetAttachObjectFn`. -/
def setAttachObjectFn (h : PtrHeap ω ι) (l : ℕ) (fn : ι → ω → Option ω) : Option (PtrHeap ω ι) :=
  (h.list l).map fun pl => h.setList l { pl with attachObjectFn := some fn }

/-- `GWEN_SimplePtrList_SetFreeObjectFn`. -/
def setFreeObjectFn (h : PtrHeap ω ι) (l : ℕ) (fn : ι → ω → Option ω) : Option (PtrHeap ω ι) :=
  (h.list l).map fun pl => h.setList l { pl with freeObjectFn := some fn }

/-- `GWEN_SimplePtrList_AddFlags`. -/
def addFlags (h : PtrHeap ω ι) (l : ℕ) (f : UInt32) : Option (PtrHeap ω ι) :=
  (h.list l).map fun pl => h.setList l { pl with flags := pl.flags ||| f }

/-- `GWEN_SimplePtrList_SetUserIntData`. -/
def setUserIntData (h : PtrHeap ω ι) (l : ℕ) (i : ℤ) : Option (PtrHeap ω ι) :=
  (h.list l).map fun pl => h.setList l { pl with userIntData := i }

/-- `GWEN_SimplePtrList_SetUserCounter`. -/
def setUserCounter (h : PtrHeap ω ι) (l i : ℕ) : Option (PtrHeap ω ι) :=
  (h.list l).map fun pl => h.setList l { pl with userCounter := i }

/-- `GWEN_SimplePtrList_IncUserCounter`. -/
def incUserCounter (h : PtrHeap ω ι) (l : ℕ) : Option (PtrHeap ω ι) :=
  (h.list l).map fun pl => h.setList l { pl with userCounter := pl.userCounter + 1 }

/-- `GWEN_SimplePtrList_DecUserCounter`. -/
def decUserCounter (h : PtrHeap ω ι) (l : ℕ) : Option (ℤ × PtrHeap ω ι) :=
  (h.list l).map fun pl =>
    if pl.userCounter = 0 then (errorInvalid, h)
    else (0, h.setList l { pl with userCounter := pl.userCounter - 1 })

/-- `GWEN_SimplePtrList_LazyCopy`: the address of the copy. -/
def lazyCopy (h : PtrHeap ω ι) (l : ℕ) : Option (ℕ × PtrHeap ω ι) := do
  let oldList ← h.list l
  let h ← attachToPtrList h oldList.entryList
  let flags := oldList.flags ||| flagsCopyOnWrite
  let pl := { oldList with refCount := 1, userCounter := 0, flags := flags }
  -- the old list gets the flag too
  let h := h.setList l { oldList with flags := flags }
  some (h.lists.length, { h with lists := h.lists ++ [pl] })

/-- `GWEN_SimplePtrList_free`; the objects are released with the last list on their block. -/
def free (h : PtrHeap ω ι) (l : ℕ) : Option (PtrHeap ω ι) := do
  let pl ← h.list l
  if pl.refCount = 1 then
    let b ← h.block pl.entryList
    let h ← if b.refCounter = 1 then detachFromAllIfSet h pl else some h
    let h := freePtrList h pl.entryList
    some (h.setList l { pl with refCount := 0, maxEntries := 0 })
  else
    some (h.setList l { pl with refCount := pl.refCount - 1 })

/-- `GWEN_SimplePtrList_Clear`. -/
def clear (h : PtrHeap ω ι) (l : ℕ) : Option (PtrHeap ω ι) := do
  let pl ← h.list l
  let h ← detachFromAllIfSet h pl
  let b ← h.block pl.entryList
  if pl.usedEntries ≤ b.entries.length then
    some (h.setBlock pl.entryList { b with
      entries := List.replicate pl.usedEntries none ++ b.entries.drop pl.usedEntries })
  else none

/-- `GWEN_SimplePtrList_EnsureWritability`. -/
def ensureWritability (fits : ℕ → Bool) (h : PtrHeap ω ι) (l : ℕ) : Option (ℤ × PtrHeap ω ι) := do
  let pl ← h.list l
  if pl.hasFlag flagsCopyOnWrite then
    let num := pl.maxEntries + pl.steps
    match ← copyPtrList fits h pl.entryList num with
    | none => some (errorMemoryFull, h)
    | some (entryList, h) =>
        let h := freePtrList h pl.entryList
        let pl := { pl with entryList := entryList, maxEntries := num }
        let h ← attachToAllIfSet h pl
        some (0, h.setList l { pl with flags := pl.flags &&& ~~~flagsCopyOnWrite })
  else some (0, h)

/-- `GWEN_SimplePtrList_GetPtrAt`; the inner `none` is a NULL pointer. -/
def getPtrAt (h : PtrHeap ω ι) (l idx : ℕ) : Option (Option ι) := do
  let pl ← h.list l
  if idx < pl.usedEntries then
    let b ← h.block pl.entryList
    b.entries[idx]?
  else some none

/-- `GWEN_SimplePtrList_SetPtrAt`. -/
def setPtrAt (fits : ℕ → Bool) (h : PtrHeap ω ι) (l idx : ℕ) (p : Option ι) :
    Option (ℤ × PtrHeap ω ι) := do
  let pl ← h.list l
  if idx < pl.usedEntries then
    let (rv, h) ← ensureWritability fits h l
    if rv < 0 then some (rv, h)
    else
      let pl ← h.list l
      let b ← h.block pl.entryList
      let oldPtr ← b.entries[idx]?
      let h := h.setBlock pl.entryList { b with entries := b.entries.set idx p }
      let w ← attachIfAny pl p h.objects
      let w ← detachIfAny pl oldPtr w
      some (0, { h with objects := w })
  else some (errorBufferOverflow, h)

/-- The resizing part of `GWEN_SimplePtrList_AddPtr`. -/
def makeRoom (fits : ℕ → Bool) (h : PtrHeap ω ι) (l : ℕ) : Option (ℤ × PtrHeap ω ι) := do
  let pl ← h.list l
  if pl.maxEntries ≤ pl.usedEntries then
    let num := pl.maxEntries + pl.steps
    if pl.maxEntries < num then
      match ← reallocPtrList fits h pl.entryList num with
      | none => some (errorMemoryFull, h)
      | some (entryList, h) =>
          some (0, h.setList l { pl with entryList := entryList, maxEntries := num })
    else some (errorMemoryFull, h)
  else some (0, h)

/-- `GWEN_SimplePtrList_AddPtr`: the index of the new entry. -/
def addPtr (fits : ℕ → Bool) (h : PtrHeap ω ι) (l : ℕ) (p : Option ι) :
    Option (ℤ × PtrHeap ω ι) := do
  let (rv, h) ← ensureWritability fits h l
  if rv < 0 then some (rv, h)
  else
    let (rv, h) ← makeRoom fits h l
    if rv < 0 then some (rv, h)
    else
      let pl ← h.list l
      let b ← h.block pl.entryList
      if pl.usedEntries < b.entries.length then
        let h := h.setBlock pl.entryList { b with entries := b.entries.set pl.usedEntries p }
        let w ← attachIfAny pl p h.objects
        let h := { h with objects := w }
        some ((pl.usedEntries : ℤ), h.setList l { pl with usedEntries := pl.usedEntries + 1 })
      else none

end SimplePtrList
end Gwenhywfar
