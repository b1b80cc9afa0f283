import Gwenhywfar.Base.Error
import Gwenhywfar.Base.IdMapRefine

/-! # `GWEN_MULTICACHE`

A cache for objects of several types.  Its entries are in one list, the least recently used one
first, and in the id map of their type.  Entries, types and objects are known by their addresses,
which are natural numbers; the address of a released entry is not used again.

* `MultiCache.log`: the calls of the functions that attach to objects and free them.
* A step has no outcome when an assertion fails or a released entry is used. -/

namespace Gwenhywfar

/-- The parameters of an entry that are numbers. -/
structure CacheParams where
  param1 : UInt32
  param2 : UInt32
  param3 : UInt32
  param4 : UInt32
deriving DecidableEq, Repr

/-- `GWEN_MULTICACHE_ENTRY`. -/
structure CacheEntry where
  cacheType : ℕ
  id : UInt32
  dataSize : UInt32
  dataPtr : ℕ
  params : CacheParams
deriving DecidableEq, Repr

/-- What the cache does with an object of a type: it attaches to it and frees it for an entry of
its own, or it attaches to it for the caller. -/
inductive CacheCall where
  | attach (cacheType dataPtr : ℕ)
  | free (cacheType dataPtr : ℕ)
  | handOut (cacheType dataPtr : ℕ)
deriving DecidableEq, Repr

/-- `GWEN_MULTICACHE` with the entries in memory and the id maps of the types. -/
structure MultiCache where
  entryList : List ℕ
  maxSize : ℕ
  currentSize : ℕ
  maxSizeUsed : ℕ
  entry : ℕ → Option CacheEntry
  nextEntry : ℕ
  entryMap : ℕ → IdMap ℕ
  log : List CacheCall

namespace MultiCache

/-- `GWEN_MultiCache_new`, with the types that are made for it. -/
def new (maxSize : ℕ) : MultiCache :=
  ⟨[], maxSize, 0, 0, fun _ => none, 0, fun _ => IdMap.new, []⟩

/-- `GWEN_MultiCache_Entry_new`. -/
def newEntry (mc : MultiCache) (e : CacheEntry) : ℕ × MultiCache :=
  (mc.nextEntry, { mc with
    entry := Function.update mc.entry mc.nextEntry (some e)
    nextEntry := mc.nextEntry + 1 })

/-- `GWEN_MultiCache_ReleaseEntry`; an entry that is in no list stays out of the list. -/
def releaseEntry (mc : MultiCache) (a : ℕ) : Option MultiCache :=
  (mc.entry a).bind fun e =>
    ((mc.entryMap e.cacheType).setPair e.id none).map fun (_, m) =>
      { mc with
        entryList := mc.entryList.erase a
        entryMap := Function.update mc.entryMap e.cacheType m
        log := mc.log ++ [.free e.cacheType e.dataPtr]
        entry := Function.update mc.entry a none
        currentSize := (mc.currentSize + (2 ^ 64 - e.dataSize.toNat)) % 2 ^ 64 }

/-- The loop of `GWEN_MultiCache_AddEntry` that makes room, in at most `k` rounds; it tells
whether there is room now. -/
def makeRoom : (k : ℕ) → MultiCache → (nsize : ℤ) → Option (Bool × MultiCache)
  | 0, _, _ => none
  | k + 1, mc, nsize =>
      if nsize ≤ 0 then some (true, mc)
      else
        match mc.entryList with
        | [] => some (false, mc)
        | ce :: _ => (mc.entry ce).bind fun e =>
            (mc.releaseEntry ce).bind fun mc => makeRoom k mc (nsize - e.dataSize.toNat)

/-- The last part of `GWEN_MultiCache_AddEntry`. -/
def appendEntry (mc : MultiCache) (a : ℕ) (e : CacheEntry) : MultiCache :=
  let currentSize := (mc.currentSize + e.dataSize.toNat) % 2 ^ 64
  { mc with
    currentSize := currentSize
    maxSizeUsed := max mc.maxSizeUsed currentSize
    log := mc.log ++ [.attach e.cacheType e.dataPtr]
    entryList := mc.entryList ++ [a] }

/-- The value of `a - b` for two `uint64_t`, stored in an `int64_t`. -/
def intOfDiff64 (a b : ℕ) : ℤ :=
  let d := ((a : ℤ) - b) % 2 ^ 64
  if d < 2 ^ 63 then d else d - 2 ^ 64

/-- `GWEN_MultiCache_AddEntry`. -/
def addEntry (mc : MultiCache) (a : ℕ) : Option (ℤ × MultiCache) :=
  (mc.entry a).bind fun e =>
    let needed := (mc.currentSize + e.dataSize.toNat) % 2 ^ 64
    if mc.maxSize < needed then
      (makeRoom (mc.entryList.length + 1) mc (intOfDiff64 needed mc.maxSize)).map fun (room, mc) =>
        if room then (0, mc.appendEntry a e) else (errorMemoryFull, mc)
    else some (0, mc.appendEntry a e)

/-- `GWEN_MultiCache_UsingEntry`. -/
def usingEntry (mc : MultiCache) (a : ℕ) : MultiCache :=
  { mc with entryList := mc.entryList.erase a ++ [a] }

/-- `GWEN_MultiCache_Type_PurgeData`. -/
def purgeData (mc : MultiCache) (ct : ℕ) (id : UInt32) : Option MultiCache :=
  match (mc.entryMap ct).find id with
  | none => some mc
  | some a => mc.releaseEntry a

/-- The part of `GWEN_MultiCache_Type_SetDataWithParams` that follows the purge.  The result of
`GWEN_MultiCache_AddEntry` is not looked at. -/
def insertData (mc : MultiCache) (ct : ℕ) (id : UInt32) (ptr : ℕ) (size : UInt32)
    (params : CacheParams) : Option MultiCache :=
  let (a, mc) := mc.newEntry ⟨ct, id, size, ptr, params⟩
  (mc.addEntry a).bind fun (_, mc) =>
    ((mc.entryMap ct).setPair id (some a)).map fun (_, m) =>
      { mc with entryMap := Function.update mc.entryMap ct m }

/-- `GWEN_MultiCache_Type_SetDataWithParams`. -/
def setDataWithParams (mc : MultiCache) (ct : ℕ) (id : UInt32) (ptr : ℕ) (size : UInt32)
    (params : CacheParams) : Option MultiCache :=
  (mc.purgeData ct id).bind fun mc => mc.insertData ct id ptr size params

/-- `GWEN_MultiCache_Type_SetData`: the parameters of a new entry are zero. -/
def setData (mc : MultiCache) (ct : ℕ) (id : UInt32) (ptr : ℕ) (size : UInt32) :
    Option MultiCache :=
  mc.setDataWithParams ct id ptr size ⟨0, 0, 0, 0⟩

/-- What `GWEN_MultiCache_Type_GetData` and `GWEN_MultiCache_Type_GetDataWithParams` have in
common: the object of the entry that is accepted, and the cache. -/
def getEntry (accepts : CacheEntry → Bool) (mc : MultiCache) (ct : ℕ) (id : UInt32) :
    Option (Option ℕ × MultiCache) :=
  match (mc.entryMap ct).find id with
  | none => some (none, mc)
  | some a => (mc.entry a).map fun e =>
      if accepts e then
        (some e.dataPtr,
          { mc.usingEntry a with log := mc.log ++ [.handOut ct e.dataPtr] })
      else (none, mc)

/-- `GWEN_MultiCache_Type_GetData`. -/
def getData (mc : MultiCache) (ct : ℕ) (id : UInt32) : Option (Option ℕ × MultiCache) :=
  mc.getEntry (fun _ => true) ct id

/-- `GWEN_MultiCache_Type_GetDataWithParams`. -/
def getDataWithParams (mc : MultiCache) (ct : ℕ) (id : UInt32) (params : CacheParams) :
    Option (Option ℕ × MultiCache) :=
  mc.getEntry (fun e => e.params = params) ct id

/-- The loop of `GWEN_MultiCache_ReleaseEntriesForType` over the entries of the list; each entry is
left before it is released. -/
def releaseEntries (ct : ℕ) : MultiCache → List ℕ → Option MultiCache
  | mc, [] => some mc
  | mc, a :: as => (mc.entry a).bind fun e =>
      if e.cacheType = ct then (mc.releaseEntry a).bind fun mc => releaseEntries ct mc as
      else releaseEntries ct mc as

/-- `GWEN_MultiCache_Type_PurgeAll`. -/
def purgeAll (mc : MultiCache) (ct : ℕ) : Option MultiCache := releaseEntries ct mc mc.entryList

/-- A call of one of the functions of a type. -/
inductive Op where
  | setData (ct : ℕ) (id : UInt32) (ptr : ℕ) (size : UInt32)
  | setDataWithParams (ct : ℕ) (id : UInt32) (ptr : ℕ) (size : UInt32) (params : CacheParams)
  | getData (ct : ℕ) (id : UInt32)
  | getDataWithParams (ct : ℕ) (id : UInt32) (params : CacheParams)
  | purgeData (ct : ℕ) (id : UInt32)
  | purgeAll (ct : ℕ)

def step (mc : MultiCache) : Op → Option MultiCache
  | .setData ct id ptr size => mc.setData ct id ptr size
  | .setDataWithParams ct id ptr size params => mc.setDataWithParams ct id ptr size params
  | .getData ct id => (mc.getData ct id).map Prod.snd
  | .getDataWithParams ct id params => (mc.getDataWithParams ct id params).map Prod.snd
  | .purgeData ct id => mc.purgeData ct id
  | .purgeAll ct => mc.purgeAll ct

end MultiCache
end Gwenhywfar
